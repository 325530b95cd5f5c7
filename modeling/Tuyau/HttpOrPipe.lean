import Tuyau.DynamicMode
import Tuyau.Lookups
import Tuyau.PublicStatic

/-! # HTTP or a pipe, while the table changes

After the handshake of a terminated host, `handle_public` decides between the HTTP proxy and a pipe
of plain bytes.  A client without ALPN is piped only if `routes_to_upstream` says that the host does
not go to an upstream, since a pipe would let it send its own `X-Real-IP` there.  The pipe then asks
the table again, with a lookup of its own, and in dynamic mode anything may have been called in
between.

`Visit.Dynamic` puts any sequence of calls before each of the four questions.  The upstreams are the
same at all of them, so only the exact names decide: `http_served_iff` says that a connection whose
last lookup finds an upstream is served by the HTTP proxy exactly when it negotiated a protocol, or
when nothing but the upstreams named its host at the third question. -/

namespace Tuyau

open AsciiText RoutingTable Server

/-- The tables that a public connection asks in dynamic mode: that of the configuration after any
calls, and after more calls at each further question. -/
structure Visit.Dynamic (cfg : ServerConfig) (ops ops₁ ops₂ ops₃ : List Op) (v : Visit) : Prop where
  terminatedAt : v.terminatedAt.routes = after cfg ops
  offloadAt : v.offloadAt.routes = after cfg (ops ++ ops₁)
  upstreamAt : v.upstreamAt.routes = after cfg (ops ++ ops₁ ++ ops₂)
  pipe : v.pipe.seen.routes = after cfg (ops ++ ops₁ ++ ops₂ ++ ops₃)

/-- The same visit, with what its last lookup finds reachable or not. -/
def Visit.reaching (v : Visit) (reached : Bool) : Visit := { v with pipe := { v.pipe with reached } }

/-- The connection is handed to the HTTP proxy, whether or not a pipe could have been opened. -/
def ServedAsHttp (sni : Text) (peer : SocketAddr) (needsClientCert : Bool) (v : Visit) : Prop :=
  ∀ reached, handlePublic needsClientCert peer (.record (some sni)) (v.reaching reached) =
    .handshake :: serveHttp sni peer (.of needsClientCert) v.requests

/-- A lower-case name is left to the upstreams: it has one of its own, or no hostname of the
configuration, provisioned host or tunnel names it. -/
def LeftToUpstreams (t : RoutingTable) (name : Text) : Prop := name ∈ t.locals ∨ ¬ t.named name

section

variable {sni : Text} {peer : SocketAddr} {needsClientCert : Bool} {v : Visit} {alpn : Option Alpn}

/-- What becomes of an admitted connection of a terminated host whose plaintext is not piped as a
rule: without ALPN and without an upstream at the third question it is piped, else it is HTTP. -/
theorem handlePublic_terminated (hterm : v.terminatedAt.routes.isTerminated sni = true)
    (hadm : v.Admitted needsClientCert alpn) (hoff : v.offloadAt.routes.isOffload sni = false) :
    handlePublic needsClientCert peer (.record (some sni)) v =
      .handshake ::
        if alpn = none ∧ v.upstreamAt.routes.routesToUpstream sni = false
        then pipeTo sni peer .bytePipe v.pipe [.page502]
        else serveHttp sni peer (.of needsClientCert) v.requests := by
  obtain ⟨cert, htls, hacme, hcert⟩ := hadm
  have hpass : (needsClientCert && !cert) = false := by
    cases needsClientCert with
    | false => rfl
    | true => simp [hcert rfl]
  show serveSni sni peer needsClientCert v = _
  rw [serveSni, if_pos hterm, htls]
  simp only [serveTerminated, if_neg hacme, hpass, hoff, Bool.not_false, Bool.true_and,
    Bool.false_eq_true, if_false]
  congr 1
  cases alpn with
  | none => cases v.upstreamAt.routes.routesToUpstream sni <;> simp
  | some p =>
      cases p with
      | h2 => simp
      | http11 => simp
      | acmeTls1 => exact absurd rfl hacme

/-- A pipe to an upstream that can be reached is no work of the HTTP proxy. -/
theorem pipeTo_ne_serveHttp {target : UpstreamTarget} {a : Attempt} {client : Client}
    {requests : List ProxiedRequest} {missing : List Output}
    (hfind : a.seen.find sni = some (.localTo target)) (hreached : a.reached = true) :
    pipeTo sni peer .bytePipe a missing ≠ serveHttp sni peer client requests := by
  intro heq
  have hin : .forward .bytePipe (.localTo target) ∈ serveHttp sni peer client requests := by
    rw [← heq, pipeTo, hfind]
    simp [hreached]
  obtain ⟨⟨exchange, hpath⟩, -⟩ := mem_serveHttp hin
  cases hpath

end

/-! ### What calls leave alone -/

namespace RoutingTable

variable {t : RoutingTable} {name : Text}

/-- Where some pattern of a name is an upstream, the name goes to an upstream exactly if it is left to
the upstreams. -/
theorem upstream_isSome_iff {h : Text}
    (hpat : toAsciiLowercase h ∈ t.locals ∨
      ∃ pattern ∈ (hostPatterns (toAsciiLowercase h)).drop 1, pattern ∈ t.locals) :
    (t.upstream h).isSome ↔ LeftToUpstreams t (toAsciiLowercase h) := by
  by_cases hlocal : toAsciiLowercase h ∈ t.locals
  · obtain ⟨up, hup⟩ := Option.isSome_iff_exists.mp (AList.lookup_isSome.mpr hlocal)
    simp [upstream, hup, LeftToUpstreams, hlocal]
  · have hpat := hpat.resolve_left hlocal
    rw [upstream_eq_wildcard hlocal, Option.isSome_iff_ne_none, ne_eq, wildcardUpstream_eq_none,
      not_not, LeftToUpstreams, or_iff_right hlocal]
    exact and_iff_left hpat

/-- A host that goes to an upstream has one of its own or by a pattern. -/
theorem pattern_of_upstream {h : Text} {up : LocalUpstream} (hup : t.upstream h = some up) :
    toAsciiLowercase h ∈ t.locals ∨
      ∃ pattern ∈ (hostPatterns (toAsciiLowercase h)).drop 1, pattern ∈ t.locals := by
  by_cases hlocal : toAsciiLowercase h ∈ t.locals
  · exact .inl hlocal
  · rw [upstream_eq_wildcard hlocal] at hup
    have hcov : t.Covered (toAsciiLowercase h) := by
      by_contra hcov
      rw [wildcardUpstream_eq_none.mpr hcov] at hup
      cases hup
    exact .inr hcov.2

end RoutingTable

section

variable {cfg : ServerConfig} {ops ops₁ ops₂ ops₃ : List Op} {sni : Text} {peer : SocketAddr}
  {needsClientCert : Bool} {v : Visit} {alpn : Option Alpn}

/-- A connection for which the third question gives an upstream is served as HTTP. -/
theorem served_of_routesToUpstream (hterm : v.terminatedAt.routes.isTerminated sni = true)
    (hadm : v.Admitted needsClientCert alpn) (hoff : v.offloadAt.routes.isOffload sni = false)
    (hroutes : alpn = none → v.upstreamAt.routes.routesToUpstream sni = true) :
    ServedAsHttp sni peer needsClientCert v := by
  intro reached
  rw [handlePublic_terminated (v := v.reaching reached) hterm hadm hoff, if_neg]
  · rfl
  · rintro ⟨halpn, hno⟩
    exact absurd ((hroutes halpn).symm.trans hno) (by decide)

/-- A host with an upstream of its own is served as HTTP whatever is called meanwhile. -/
theorem served_of_exact (hv : v.Dynamic cfg ops ops₁ ops₂ ops₃)
    (hterm : v.terminatedAt.routes.isTerminated sni = true)
    (hadm : v.Admitted needsClientCert alpn) (hoff : v.offloadAt.routes.isOffload sni = false)
    (hexact : toAsciiLowercase sni ∈ (fromConfig cfg.hostnames cfg.upstreams).locals) :
    ServedAsHttp sni peer needsClientCert v := by
  have hin : toAsciiLowercase sni ∈ v.upstreamAt.routes.locals := by
    rwa [hv.upstreamAt, (config_after cfg _).1]
  apply served_of_routesToUpstream hterm hadm hoff
  intro _
  simp [routesToUpstream, hin]

/-- **When a terminated connection that ends at an upstream is served as HTTP**, with any calls made
between its questions: exactly when it negotiated a protocol, or its host was left to the upstreams
when the third question was asked. -/
theorem http_served_iff {target : UpstreamTarget} (hv : v.Dynamic cfg ops ops₁ ops₂ ops₃)
    (hterm : v.terminatedAt.routes.isTerminated sni = true)
    (hadm : v.Admitted needsClientCert alpn) (hoff : v.offloadAt.routes.isOffload sni = false)
    (hlast : v.pipe.seen.find sni = some (.localTo target)) :
    ServedAsHttp sni peer needsClientCert v ↔
      (alpn = none → LeftToUpstreams v.upstreamAt.routes (toAsciiLowercase sni)) := by
  -- the upstreams at the third question are those of the last lookup
  have hlocals : v.upstreamAt.routes.locals = v.pipe.seen.routes.locals := by
    rw [hv.upstreamAt, hv.pipe, (config_after cfg _).1, (config_after cfg _).1]
  obtain ⟨up, hup, -⟩ := lookup_eq_localTo.mp hlast
  have hpat := pattern_of_upstream hup
  rw [← hlocals] at hpat
  have hthird : v.upstreamAt.routes.routesToUpstream sni = true ↔
      LeftToUpstreams v.upstreamAt.routes (toAsciiLowercase sni) := by
    rw [routesToUpstream_eq]
    exact upstream_isSome_iff hpat
  constructor
  · intro hserved halpn
    by_contra hleft
    have hno : v.upstreamAt.routes.routesToUpstream sni = false := by
      rw [← Bool.not_eq_true, hthird]
      exact hleft
    have hpiped := hserved true
    rw [handlePublic_terminated (v := v.reaching true) hterm hadm hoff, if_pos ⟨halpn, hno⟩] at hpiped
    exact pipeTo_ne_serveHttp (a := (v.reaching true).pipe) hlast rfl (List.cons.inj hpiped).2
  · intro hcond
    exact served_of_routesToUpstream hterm hadm hoff fun halpn => hthird.mpr (hcond halpn)

end

/-- A connection without ALPN to a catch-all upstream, as the servers it asks are given. -/
def Visit.withoutAlpn (s₁ s₂ s₃ s₄ : Server) : Visit where
  terminatedAt := s₁
  tls := .established none false
  offloadAt := s₂
  upstreamAt := s₃
  pipe := ⟨s₄, true⟩
  requests := []

/-- Another host is provisioned while a connection to the catch-all upstream is on its way. -/
theorem http_served_provisioned :
    let s := start catchAll
    let s' := s.setTerminatedDomains ["shop".toList]
    ServedAsHttp "app".toList (.v4 192 0 2 7 50000) false (.withoutAlpn s s s' s') := by
  intro s s'
  have hv : (Visit.withoutAlpn s s s' s').Dynamic catchAll [] [] [.setTerminated ["shop".toList]] [] :=
    ⟨rfl, rfl, rfl, rfl⟩
  have hadm : (Visit.withoutAlpn s s s' s').Admitted false none := ⟨false, rfl, by decide, by decide⟩
  have hlast : s'.find "app".toList = some (.localTo (.tcp (.v4 127 0 0 1 8080))) := by decide
  refine (http_served_iff hv (by decide) hadm (by decide) hlast).mpr fun _ => .inr ?_
  decide

/-- A provisioned host is withdrawn between the third question and the lookup: the plaintext of its
client, whatever headers it brings, is piped to the catch-all upstream. -/
theorem piped_withdrawn :
    let s := (start catchAll).setTerminatedDomains ["app".toList]
    let s' := s.setTerminatedDomains []
    let v := Visit.withoutAlpn s s s s'
    catchAll.validateDynamic = .ok () ∧
      v.Dynamic catchAll [.setTerminated ["app".toList]] [] [] [.setTerminated []] ∧
      handlePublic false (.v4 192 0 2 7 50000) (.record (some "app".toList)) v =
        [.handshake, .forward .bytePipe (.localTo (.tcp (.v4 127 0 0 1 8080)))] ∧
      ¬ ServedAsHttp "app".toList (.v4 192 0 2 7 50000) false v := by
  intro s s' v
  have hout : handlePublic false (.v4 192 0 2 7 50000) (.record (some "app".toList)) v =
      [.handshake, .forward .bytePipe (.localTo (.tcp (.v4 127 0 0 1 8080)))] := by decide
  refine ⟨rfl, ⟨rfl, rfl, rfl, rfl⟩, hout, ?_⟩
  intro hserved
  have hhttp := hserved true
  rw [show v.reaching true = v from rfl, hout] at hhttp
  cases hhttp

end Tuyau
