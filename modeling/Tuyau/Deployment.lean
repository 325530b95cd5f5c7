import Tuyau.Delivery
import Tuyau.Handshake

/-! # Public connections and tunnels together

A server with its tunnels, and any number of public connections of hosts that it does not terminate.  Each of them
asks the routing table on its own, between the steps of all the others, opens a stream on the tunnel that it
found, which may have been replaced or revoked meanwhile, and from there on is a connection as in `Tunnelled`.
At the other end of a tunnel, `serve` takes the streams that have come in whatever order the transport gives
them; it reads the header of one before it turns to the next, and a header that is wrong or late does not stop
it.

`end_to_end` says who can get the bytes of a public connection: only a client that has shown a token for
which the backend granted it the name in the ClientHello. -/

namespace Tuyau

open AsciiText RoutingTable

/-- The listener has not looked for a route yet. -/
def Reception.early : Reception → Bool
  | reading => true
  | routing _ => true
  | _ => false

namespace Tunnelled

variable {cbor : Cbor DataStreamHeader} {peer : SocketAddr} {ingress ingress' : Text → Option Text}
  {s s' : State} {a : Action}

/-- A client that has taken no stream does not ask its ingress map. -/
theorem step_ingress (hc : s.client = .accepting) : step cbor peer ingress s a = step cbor peer ingress' s a := by
  cases a with
  | connect ok => simp only [step, hc]
  | _ => rfl

/-- What a step leaves to the parties: a header is made only when a route is found, only `accept_bi` makes a client
take its stream, and a listener that has read the ClientHello looks for its SNI or goes on. -/
structure Keeps (s : State) (a : Action) (s' : State) : Prop where
  header : (∀ found, a ≠ .route found) → s'.header = s.header
  client : a ≠ .acceptBi → a ≠ .skip → s.client = .accepting → s'.client = .accepting
  listener : s.listener ≠ .reading → s'.listener = s.listener ∨ s'.listener.early = false

theorem Keeps.of_same (hheader : s'.header = s.header) (hclient : s'.client = s.client)
    (hlistener : s'.listener = s.listener ∨ s'.listener.early = false) : Keeps s a s' where
  header _ := hheader
  client _ _ hacc := hclient.trans hacc
  listener _ := hlistener

theorem keeps_readHello (hl : s.listener = .reading) (h : readHello s = some s') : Keeps s .readHello s' := by
  have hdrop : ∀ pub, Keeps s .readHello { s with pub }.dropListener := fun _ => .of_same rfl rfl (.inr rfl)
  unfold readHello at h
  split at h
  · dsimp only at h
    split at h
    · cases h
      exact hdrop _
    · cases h
      exact ⟨fun _ => rfl, fun _ _ => id, fun hne => absurd hl hne⟩
  · obtain ⟨-, h⟩ := Option.ite_none_right_eq_some.mp h
    cases h
    exact hdrop s.pub
  · cases h
    exact hdrop s.pub

theorem header_acceptBi (h : acceptBi cbor s = some s') : s'.header = s.header ∧ s'.listener = s.listener := by
  unfold acceptBi at h
  split at h
  · cases h
    exact ⟨rfl, rfl⟩
  · obtain ⟨-, h⟩ := Option.ite_none_right_eq_some.mp h
    cases h
    exact ⟨rfl, rfl⟩
  · cases h
    exact ⟨rfl, rfl⟩

theorem keeps_route {sni : Text} {found : Option TlsMode} :
    Keeps s (.route found) (openTunnelStream cbor peer s sni found) := by
  have hdrop : Keeps s (.route found) s.dropListener := .of_same rfl rfl (.inr rfl)
  unfold openTunnelStream
  split
  · exact hdrop
  · dsimp only
    split
    · exact hdrop
    · exact ⟨fun h => absurd rfl (h _), fun _ _ => id, fun _ => .inr rfl⟩

theorem keeps_connect {header : DataStreamHeader} {ok : Bool} (hc : s.client = .connecting header) :
    Keeps s (.connect ok) (connect ingress s header ok) := by
  have hbusy : ∀ s' : State, s.client = .accepting → s'.client = .accepting := by
    intro s' hacc
    rw [hc] at hacc
    cases hacc
  have hdrop : Keeps s (.connect ok) s.dropClient := ⟨fun _ => rfl, fun _ _ => hbusy _, fun _ => .inl rfl⟩
  unfold connect
  split
  · exact hdrop
  · split_ifs
    · exact ⟨fun _ => rfl, fun _ _ => hbusy _, fun _ => .inl rfl⟩
    · exact hdrop

theorem keeps_step (h : step cbor peer ingress s a = some s') : Keeps s a s' := by
  cases a with
  | send _ | receive _ | serve _ | answer _ =>
      obtain ⟨-, h⟩ := Option.ite_none_right_eq_some.mp h
      cases h
      exact .of_same rfl rfl (.inl rfl)
  | close | hangUp =>
      cases h
      exact .of_same rfl rfl (.inl rfl)
  | readHello =>
      obtain ⟨hl, h⟩ := Option.ite_none_right_eq_some.mp h
      exact keeps_readHello hl h
  | route found =>
      simp only [step] at h
      split at h
      · cases h
        exact keeps_route
      · cases h
  | sendHeader n =>
      simp only [step] at h
      split at h
      · obtain ⟨-, h⟩ := Option.ite_none_right_eq_some.mp h
        cases h
        refine .of_same rfl rfl (.inr ?_)
        dsimp only
        split_ifs <;> rfl
      · cases h
  | drop =>
      obtain ⟨-, h⟩ := Option.ite_none_left_eq_some.mp h
      cases h
      exact .of_same rfl rfl (.inr rfl)
  | up ev | down ev =>
      obtain ⟨-, h⟩ := Option.ite_none_right_eq_some.mp h
      obtain ⟨r, -, rfl⟩ := Option.map_eq_some_iff.mp h
      exact .of_same rfl rfl (.inl rfl)
  | acceptBi =>
      obtain ⟨-, h⟩ := Option.ite_none_right_eq_some.mp h
      obtain ⟨hheader, hlistener⟩ := header_acceptBi h
      exact ⟨fun _ => hheader, fun hne => absurd rfl hne, fun _ => .inl hlistener⟩
  | connect ok =>
      simp only [step] at h
      split at h
      · next header hc =>
          cases h
          exact keeps_connect hc
      · cases h
  | skip =>
      obtain ⟨-, h⟩ := Option.ite_none_right_eq_some.mp h
      cases h
      exact ⟨fun _ => rfl, fun _ hne => absurd rfl hne, fun _ => .inl rfl⟩
  | inbound ev | outbound ev =>
      simp only [step] at h
      split at h
      · obtain ⟨r, -, rfl⟩ := Option.map_eq_some_iff.mp h
        exact .of_same rfl rfl (.inl rfl)
      · cases h
  | hold place full | cut place =>
      cases h
      cases place <;> exact .of_same rfl rfl (.inl rfl)

end Tunnelled

/-! ### The system -/

/-- A public connection: where it comes from, whether the listener has found that its host is not terminated, the
tunnel that `lookup` gave, whether there is a stream on it, and the bytes. -/
structure Passage where
  peer : SocketAddr
  passthrough : Bool
  tunnel : Option RouteEntry
  stream : Bool
  bytes : Tunnelled.State

namespace Passage

def start (peer : SocketAddr) : Passage := ⟨peer, false, none, false, Tunnelled.start⟩

variable (p : Passage)

/-- The stream is one of tunnel `c`, something of it has come, and the client has not taken it yet. -/
def waitsAt (c : Connection) : Bool :=
  p.stream && (p.tunnel.any fun e => e.conn = c) && decide (p.bytes.client = .accepting) &&
    (!p.bytes.request.written.isEmpty || p.bytes.request.fin || p.bytes.request.broken)

/-- The ingress map at the end of the tunnel. -/
def localAddr (ingress : Connection → Text → Option Text) : Text → Option Text :=
  (p.tunnel.map fun e => ingress e.conn).getD fun _ => none

variable {p} in
theorem localAddr_of_tunnel {ingress : Connection → Text → Option Text} {e : RouteEntry} (h : p.tunnel = some e) :
    p.localAddr ingress = ingress e.conn := by
  rw [localAddr, h]
  rfl

/-- The connection after its lookup. -/
def routed : Option Route → Passage
  | some (.tunnel e) => { p with tunnel := some e }
  | _ => { p with bytes := p.bytes.dropListener }

/-- `open_tunnel_stream`, once `open_bi` has returned. -/
def opened (cbor : Cbor DataStreamHeader) (sni : Text) (e : RouteEntry) (ok : Bool) : Passage :=
  if ok then
    { p with
      stream := true
      bytes := Tunnelled.openTunnelStream cbor p.peer p.bytes sni (some e.tlsMode) }
  else { p with bytes := p.bytes.dropListener }

/-- What the parties of one connection do by themselves: the route comes from the table, and streams are taken in
the loop of the client. -/
def allows : Tunnelled.Action → Bool
  | .route _ | .acceptBi | .skip => false
  | _ => true

end Passage

/-- A client in `ended` has left its loop. -/
structure Deployment where
  server : Server
  passages : List Passage
  ended : List Connection

namespace Deployment

def start (cfg : ServerConfig) : Deployment := ⟨Server.start cfg, [], []⟩

/-- The steps of the server, of the listener with the `i`-th public connection, of the parties of that connection,
and of the loop of the client at the end of tunnel `c`. -/
inductive Step where
  | server (a : Action)
  | visit (peer : SocketAddr)
  | isTerminated (i : ℕ)
  | lookup (i : ℕ)
  | openBi (i : ℕ) (ok : Bool)
  | move (i : ℕ) (a : Tunnelled.Action)
  | serve (c : Connection) (i : ℕ) (late : Bool)
  | serveEnds (c : Connection)

variable (backend : Token → Option ClientGrant → Bool) (cbor : Cbor DataStreamHeader)
  (ingress : Connection → Text → Option Text)

def step (s : Deployment) : Step → Option Deployment
  | .server a => (s.server.step backend a).map fun server => { s with server }
  | .visit peer => some { s with passages := s.passages ++ [.start peer] }
  | .isTerminated i =>
      (s.passages[i]?).bind fun p =>
        match p.bytes.listener with
        | .routing sni =>
            if s.server.routes.isTerminated sni then none
            else some { s with passages := s.passages.set i { p with passthrough := true } }
        | _ => none
  | .lookup i =>
      (s.passages[i]?).bind fun p =>
        match p.bytes.listener with
        | .routing sni =>
            if p.passthrough ∧ p.tunnel = none then
              let found := s.server.routes.lookup (fun c => !s.server.closed c) sni
              some { s with
                server := { s.server with routes := found.2 }
                passages := s.passages.set i (p.routed found.1) }
            else none
        | _ => none
  | .openBi i ok =>
      (s.passages[i]?).bind fun p =>
        match p.bytes.listener, p.tunnel with
        | .routing sni, some e => some { s with passages := s.passages.set i (p.opened cbor sni e ok) }
        | _, _ => none
  | .move i a =>
      (s.passages[i]?).bind fun p =>
        if Passage.allows a then
          (Tunnelled.step cbor p.peer (p.localAddr ingress) p.bytes a).map fun bytes =>
            { s with passages := s.passages.set i { p with bytes } }
        else none
  | .serve c i late =>
      -- one round: the header of a stream is read, or does not come in time
      if c ∈ s.ended then none
      else
        (s.passages[i]?).bind fun p =>
          if p.waitsAt c then
            (Tunnelled.step cbor p.peer (p.localAddr ingress) p.bytes (if late then .skip else .acceptBi)).map
              fun bytes => { s with passages := s.passages.set i { p with bytes } }
          else none
  | .serveEnds c => some { s with ended := c :: s.ended }

/-! ### What a step does -/

/-- What can happen to a public connection, apart from finding a tunnel. -/
inductive Advance (p : Passage) : Passage → Prop
  | decided : Advance p { p with passthrough := true }
  | dropped (sni : Text) (hl : p.bytes.listener = .routing sni) :
      Advance p { p with bytes := p.bytes.dropListener }
  | opened (sni : Text) (e : RouteEntry) (hl : p.bytes.listener = .routing sni) (he : p.tunnel = some e) :
      Advance p (p.opened cbor sni e true)
  | moved (a : Tunnelled.Action) (bytes : Tunnelled.State) (hroute : ∀ found, a ≠ .route found)
      (htaken : p.tunnel = none → a ≠ .acceptBi ∧ a ≠ .skip)
      (hstep : Tunnelled.step cbor p.peer (p.localAddr ingress) p.bytes a = some bytes) :
      Advance p { p with bytes }

/-- What a step does to the public connections: nothing, or there is a new one, or one of them advances or finds a
tunnel. -/
inductive Passages (s s' : Deployment) : Prop
  | same (hp : s'.passages = s.passages)
  | visit (peer : SocketAddr) (hp : s'.passages = s.passages ++ [.start peer])
  | advance (i : ℕ) (p p' : Passage) (hi : s.passages[i]? = some p) (ha : Advance cbor ingress p p')
      (hp : s'.passages = s.passages.set i p')
  | found (i : ℕ) (p : Passage) (sni : Text) (e : RouteEntry) (hi : s.passages[i]? = some p)
      (hl : p.bytes.listener = .routing sni) (hnone : p.tunnel = none)
      (hfound : (s.server.routes.lookup (fun c => !s.server.closed c) sni).1 = some (.tunnel e))
      (hp : s'.passages = s.passages.set i { p with tunnel := some e })

variable {backend cbor ingress} {s s' : Deployment} {t : Step} {i : ℕ} {p p' : Passage} {c : Connection}

theorem tunnel_of_waitsAt (h : p.waitsAt c = true) : ∃ e, p.tunnel = some e ∧ e.conn = c := by
  simp only [Passage.waitsAt, Bool.and_eq_true] at h
  obtain ⟨e, he, hconn⟩ := (Option.any_eq_true _ _).mp h.1.1.2
  exact ⟨e, he, of_decide_eq_true hconn⟩

theorem step_spec (h : step backend cbor ingress s t = some s') :
    (s'.server = s.server ∨ ∃ a, s.server.step backend a = some s'.server) ∧ Passages cbor ingress s s' := by
  cases t with
  | server a =>
      obtain ⟨server, hstep, rfl⟩ := Option.map_eq_some_iff.mp h
      exact ⟨.inr ⟨a, hstep⟩, .same rfl⟩
  | visit peer =>
      cases h
      exact ⟨.inl rfl, .visit peer rfl⟩
  | isTerminated i =>
      obtain ⟨p, hi, h⟩ := Option.bind_eq_some_iff.mp h
      split at h
      · obtain ⟨-, h⟩ := Option.ite_none_left_eq_some.mp h
        cases h
        exact ⟨.inl rfl, .advance i p _ hi .decided rfl⟩
      · cases h
  | lookup i =>
      obtain ⟨p, hi, h⟩ := Option.bind_eq_some_iff.mp h
      split at h
      · next sni hl =>
          obtain ⟨⟨-, hnone⟩, h⟩ := Option.ite_none_right_eq_some.mp h
          obtain rfl := Option.some.inj h
          refine ⟨.inr ⟨.lookup sni, rfl⟩, ?_⟩
          cases hfound : (s.server.routes.lookup (fun c => !s.server.closed c) sni).1 with
          | none => exact .advance i p _ hi (.dropped sni hl) rfl
          | some route =>
              cases route with
              | localTo target => exact .advance i p _ hi (.dropped sni hl) rfl
              | tunnel e => exact .found i p sni e hi hl hnone hfound rfl
      · cases h
  | openBi i ok =>
      obtain ⟨p, hi, h⟩ := Option.bind_eq_some_iff.mp h
      split at h
      · next sni e hl he =>
          cases h
          cases ok with
          | true => exact ⟨.inl rfl, .advance i p _ hi (.opened sni e hl he) rfl⟩
          | false => exact ⟨.inl rfl, .advance i p _ hi (.dropped sni hl) rfl⟩
      · cases h
  | move i a =>
      obtain ⟨p, hi, h⟩ := Option.bind_eq_some_iff.mp h
      obtain ⟨hallows, h⟩ := Option.ite_none_right_eq_some.mp h
      obtain ⟨bytes, hstep, rfl⟩ := Option.map_eq_some_iff.mp h
      refine ⟨.inl rfl, .advance i p _ hi (.moved a bytes ?_ (fun _ => ⟨?_, ?_⟩) hstep) rfl⟩
      · rintro found rfl
        cases hallows
      · rintro rfl
        cases hallows
      · rintro rfl
        cases hallows
  | serve c i late =>
      obtain ⟨-, h⟩ := Option.ite_none_left_eq_some.mp h
      obtain ⟨p, hi, h⟩ := Option.bind_eq_some_iff.mp h
      obtain ⟨hwaits, h⟩ := Option.ite_none_right_eq_some.mp h
      obtain ⟨bytes, hstep, rfl⟩ := Option.map_eq_some_iff.mp h
      obtain ⟨e, he, -⟩ := tunnel_of_waitsAt hwaits
      refine ⟨.inl rfl, .advance i p _ hi (.moved _ bytes ?_ (fun hnone => ?_) hstep) rfl⟩
      · cases late <;> simp
      · rw [he] at hnone
        cases hnone
  | serveEnds c =>
      cases h
      exact ⟨.inl rfl, .same rfl⟩

/-! ### Who gets the bytes -/

/-- The client behind a route has shown a token for which the backend granted it the host. -/
def Authorised (backend : Token → Option ClientGrant → Bool) (server : Server) (e : RouteEntry) (host : Text) :
    Prop :=
  ∃ hello g, (e.conn, hello) ∈ server.hellos ∧ backend hello.token (some g) = true ∧ host ∈ g.hosts ∧
    g.clientName = e.clientName

/-- What is known about a public connection.  Until it has a tunnel, its bytes are those of a run for whatever
client there will be. -/
structure Ok (backend : Token → Option ClientGrant → Bool) (cbor : Cbor DataStreamHeader)
    (ingress : Connection → Text → Option Text) (server : Server) (p : Passage) : Prop where
  run : ∀ localAddr, (∀ e, p.tunnel = some e → localAddr = ingress e.conn) →
    ∃ actions, Runs.run (Tunnelled.step cbor p.peer localAddr) actions Tunnelled.start = some p.bytes
  authorised : ∀ header, p.bytes.header = some header →
    ∃ e, p.tunnel = some e ∧ header.mode = e.tlsMode ∧ Authorised backend server e header.hostname
  unrouted : p.tunnel = none → p.bytes.client = .accepting
  found : ∀ e, p.tunnel = some e → p.bytes.listener ≠ .reading ∧
    ∀ sni, p.bytes.listener = .routing sni → Authorised backend server e sni

variable {server server' : Server}

theorem Authorised.mono {e : RouteEntry} {host : Text} (h : Authorised backend server e host)
    (hsub : server.hellos ⊆ server'.hellos) : Authorised backend server' e host := by
  obtain ⟨hello, g, hh, hg, hhost, hname⟩ := h
  exact ⟨hello, g, hsub hh, hg, hhost, hname⟩

theorem Ok.mono (hp : Ok backend cbor ingress server p) (hsub : server.hellos ⊆ server'.hellos) :
    Ok backend cbor ingress server' p where
  run := hp.run
  authorised header hheader := by
    obtain ⟨e, he, hmode, hauth⟩ := hp.authorised header hheader
    exact ⟨e, he, hmode, hauth.mono hsub⟩
  unrouted := hp.unrouted
  found e he := ⟨(hp.found e he).1, fun sni hl => ((hp.found e he).2 sni hl).mono hsub⟩

theorem ok_start (peer : SocketAddr) : Ok backend cbor ingress server (.start peer) where
  run _ _ := ⟨[], rfl⟩
  authorised _ h := nomatch h
  unrouted _ := rfl
  found _ h := nomatch h

/-- A route of a running server leads to a client that was granted the host. -/
theorem authorised_of_lookup {sni : Text} {e : RouteEntry} (hinv : server.Inv)
    (hsaid : server.Dialogue backend)
    (h : (server.routes.lookup (fun c => !server.closed c) sni).1 = some (.tunnel e)) :
    Authorised backend server e sni := by
  obtain ⟨-, entry, hentry, hname, -, hconn, -⟩ := lookup_eq_tunnel h
  obtain ⟨ph, g, hph, hg, hhost, hclient⟩ := hinv.routed ⟨entry, hentry, rfl, hconn⟩
  obtain ⟨ph', hph', hsaid⟩ := (hsaid e.conn).resolve_left fun hnone => by simp [hph] at hnone
  rw [hph] at hph'
  obtain rfl := Option.some.inj hph'
  obtain ⟨hello, hhello, hgranted⟩ := hsaid.granted g (Phase.grant_of_routed hg)
  exact ⟨hello, g, Server.mem_hellosOf.mp hhello, hgranted, hhost, hclient.trans hname.symm⟩

/-- A step of a passage is one of its connection. -/
theorem Ok.extend (hp : Ok backend cbor ingress server p) {a : Tunnelled.Action} {bytes : Tunnelled.State}
    {localAddr : Text → Option Text} (hlocal : ∀ e, p.tunnel = some e → localAddr = ingress e.conn)
    (hstep : Tunnelled.step cbor p.peer localAddr p.bytes a = some bytes) :
    ∃ actions, Runs.run (Tunnelled.step cbor p.peer localAddr) actions Tunnelled.start = some bytes := by
  obtain ⟨actions, hrun⟩ := hp.run localAddr hlocal
  exact ⟨actions ++ [a], Runs.run_concat.mpr ⟨p.bytes, hrun, hstep⟩⟩

/-- The header is not made before there is a stream. -/
theorem Ok.header_none (hp : Ok backend cbor ingress server p) {sni : Text}
    (hl : p.bytes.listener = .routing sni) : p.bytes.header = none := by
  obtain ⟨actions, hrun⟩ := hp.run _ fun _ => Passage.localAddr_of_tunnel
  have hlistener := (Tunnelled.inv_run hrun).listener
  rw [Tunnelled.ListenerInv, hl] at hlistener
  exact hlistener.1

theorem Ok.found_of_late (hp : Ok backend cbor ingress server p) {bytes : Tunnelled.State}
    (hlate : p.bytes.listener ≠ .reading → bytes.listener = p.bytes.listener ∨ bytes.listener.early = false) :
    ∀ e, p.tunnel = some e → bytes.listener ≠ .reading ∧
      ∀ sni, bytes.listener = .routing sni → Authorised backend server e sni := by
  intro e he
  obtain ⟨hreading, hauth⟩ := hp.found e he
  rcases hlate hreading with hsame | hlate
  · rw [hsame]
    exact ⟨hreading, hauth⟩
  · refine ⟨fun h => ?_, fun sni h => ?_⟩ <;>
    · rw [h] at hlate
      cases hlate

theorem Ok.dropped (hp : Ok backend cbor ingress server p) {sni : Text} (hl : p.bytes.listener = .routing sni) :
    Ok backend cbor ingress server { p with bytes := p.bytes.dropListener } where
  run localAddr hlocal := hp.extend (a := .route none) hlocal (by simp only [Tunnelled.step, hl]; rfl)
  authorised := hp.authorised
  unrouted := hp.unrouted
  found := hp.found_of_late fun _ => .inr rfl

theorem Ok.opened (hp : Ok backend cbor ingress server p) {sni : Text} {e : RouteEntry}
    (hl : p.bytes.listener = .routing sni) (he : p.tunnel = some e) :
    Ok backend cbor ingress server (p.opened cbor sni e true) := by
  have hkeeps : Tunnelled.Keeps p.bytes (.route (some e.tlsMode)) (p.opened cbor sni e true).bytes :=
    Tunnelled.keeps_route
  refine ⟨fun localAddr hlocal => hp.extend (a := .route (some e.tlsMode)) hlocal ?_, ?_, ?_,
    hp.found_of_late hkeeps.listener⟩
  · simp only [Tunnelled.step, hl]
    rfl
  · intro header hheader
    refine ⟨e, he, ?_⟩
    simp only [Passage.opened, Tunnelled.openTunnelStream, if_true] at hheader
    split at hheader
    · simp [Tunnelled.State.dropListener, hp.header_none hl] at hheader
    · cases hheader
      exact ⟨rfl, (hp.found e he).2 sni hl⟩
  · intro hnone
    have hsome : p.tunnel = none := hnone
    rw [he] at hsome
    cases hsome

theorem Ok.moved (hp : Ok backend cbor ingress server p) {a : Tunnelled.Action} {bytes : Tunnelled.State}
    (hroute : ∀ found, a ≠ .route found) (htaken : p.tunnel = none → a ≠ .acceptBi ∧ a ≠ .skip)
    (hstep : Tunnelled.step cbor p.peer (p.localAddr ingress) p.bytes a = some bytes) :
    Ok backend cbor ingress server { p with bytes } := by
  have hkeeps := Tunnelled.keeps_step hstep
  refine ⟨fun localAddr hlocal => hp.extend (a := a) hlocal ?_, ?_, ?_, hp.found_of_late hkeeps.listener⟩
  · cases htunnel : p.tunnel with
    | some e =>
        rw [hlocal e htunnel, ← hstep, Passage.localAddr_of_tunnel htunnel]
    | none =>
        rw [← hstep]
        exact Tunnelled.step_ingress (hp.unrouted htunnel)
  · intro header hheader
    exact hp.authorised header (by rw [← hkeeps.header hroute]; exact hheader)
  · intro hnone
    exact hkeeps.client (htaken hnone).1 (htaken hnone).2 (hp.unrouted hnone)

theorem Ok.advance (hp : Ok backend cbor ingress server p) (ha : Advance cbor ingress p p') :
    Ok backend cbor ingress server p' := by
  cases ha with
  | decided => exact ⟨hp.run, hp.authorised, hp.unrouted, hp.found⟩
  | dropped sni hl => exact hp.dropped hl
  | opened sni e hl he => exact hp.opened hl he
  | moved a bytes hroute htaken hstep => exact hp.moved hroute htaken hstep

theorem Ok.routed (hp : Ok backend cbor ingress server p) {sni : Text} {e : RouteEntry}
    (hl : p.bytes.listener = .routing sni) (hnone : p.tunnel = none) (he : Authorised backend server e sni) :
    Ok backend cbor ingress server { p with tunnel := some e } where
  run localAddr _ := hp.run localAddr fun e he => by simp [hnone] at he
  authorised header hheader := by
    have hsome : p.bytes.header = some header := hheader
    rw [hp.header_none hl] at hsome
    cases hsome
  unrouted h := nomatch h
  found e' he' := by
    obtain rfl := Option.some.inj he'
    refine ⟨by simp [hl], fun sni' hl' => ?_⟩
    have hsame : Reception.routing sni = .routing sni' := hl.symm.trans hl'
    exact Reception.routing.inj hsame ▸ he

/-- What every reachable state has. -/
structure Inv (backend : Token → Option ClientGrant → Bool) (cbor : Cbor DataStreamHeader)
    (ingress : Connection → Text → Option Text) (s : Deployment) : Prop where
  server : s.server.Inv
  dialogue : s.server.Dialogue backend
  passages : ∀ p ∈ s.passages, Ok backend cbor ingress s.server p

theorem inv_start (cfg : ServerConfig) : Inv backend cbor ingress (start cfg) where
  server := Server.inv_start cfg
  dialogue := fun _ => .inl ⟨rfl, rfl⟩
  passages := fun _ hp => nomatch hp

theorem inv_step (hs : Inv backend cbor ingress s) (h : step backend cbor ingress s t = some s') :
    Inv backend cbor ingress s' := by
  obtain ⟨hserver, hpassages⟩ := step_spec h
  have hsub : s.server.hellos ⊆ s'.server.hellos := by
    rcases hserver with hsame | ⟨a, ha⟩
    · rw [hsame]
      exact List.Subset.refl _
    · exact Server.hellos_step ha
  have hold : ∀ p ∈ s.passages, Ok backend cbor ingress s'.server p :=
    fun p hp => (hs.passages p hp).mono hsub
  have hset : ∀ i p', Ok backend cbor ingress s'.server p' →
      ∀ q ∈ s.passages.set i p', Ok backend cbor ingress s'.server q := by
    intro i p' hp' q hq
    rcases List.mem_or_eq_of_mem_set hq with hq | rfl
    · exact hold q hq
    · exact hp'
  refine ⟨?_, ?_, ?_⟩
  · rcases hserver with hsame | ⟨a, ha⟩
    · exact hsame ▸ hs.server
    · exact Server.inv_step hs.server ha
  · rcases hserver with hsame | ⟨a, ha⟩
    · exact hsame ▸ hs.dialogue
    · exact Server.dialogue_step hs.dialogue ha
  · cases hpassages with
    | same hp =>
        rw [hp]
        exact hold
    | visit peer hp =>
        rw [hp]
        intro q hq
        rcases List.mem_append.mp hq with hq | hq
        · exact hold q hq
        · rw [List.mem_singleton.mp hq]
          exact ok_start peer
    | advance i p p' hi ha hp =>
        rw [hp]
        exact hset i p' ((hold p (List.mem_of_getElem? hi)).advance ha)
    | found i p sni e hi hl hnone hfound hp =>
        rw [hp]
        have he := authorised_of_lookup hs.server hs.dialogue hfound
        exact hset i _ (((hs.passages p (List.mem_of_getElem? hi)).routed hl hnone he).mono hsub)

theorem inv_run {cfg : ServerConfig} {steps : List Step}
    (h : Runs.run (step backend cbor ingress) steps (start cfg) = some s) : Inv backend cbor ingress s :=
  Runs.run_invariant (inv_start cfg) (fun _ _ _ hs h => inv_step hs h) h

/-- **The bytes of a public connection reach only who was granted its host**, in every interleaving of any
number of connections, tunnels and changes of the table.  What a local service gets of a connection is what the
peer sent, and what the peer gets is what the service sent.  A service gets something only behind a tunnel whose
client has shown a token for which the backend granted it the name in the ClientHello, and only the service
that this client's ingress map has for the name; the client was told the name, the peer and the mode. -/
theorem end_to_end {cfg : ServerConfig} {steps : List Step}
    (h : Runs.run (step backend cbor ingress) steps (start cfg) = some s) (hp : p ∈ s.passages) :
    p.bytes.toService.written <+: p.bytes.pub.raw.written ∧
    p.bytes.reply.written <+: p.bytes.fromService.written ∧
    (p.bytes.toService.written ≠ [] → ∃ e sni localAddr, p.tunnel = some e ∧
      parseSni p.bytes.pub.prefixBytes = some sni ∧ Authorised backend s.server e sni ∧
      ingress e.conn sni = some localAddr ∧
      p.bytes.client = .forwarding ⟨sni, p.peer.toText, e.tlsMode⟩ localAddr) := by
  have hok := (inv_run h).passages p hp
  obtain ⟨actions, hrun⟩ := hok.run _ fun _ => Passage.localAddr_of_tunnel
  have hi := Tunnelled.inv_run hrun
  obtain ⟨hforth, hback⟩ := Tunnelled.sound_run hrun
  refine ⟨hforth.written_isPrefix, hback.written_isPrefix, fun hne => ?_⟩
  -- bytes come out only where the client forwards
  have hclient := hi.client
  rw [Tunnelled.ClientInv] at hclient
  cases hc : p.bytes.client with
  | accepting =>
      rw [hc] at hclient
      exact absurd hclient.2 hne
  | connecting header =>
      rw [hc] at hclient
      exact absurd hclient.2.2 hne
  | dropped =>
      rw [hc] at hclient
      exact absurd hclient hne
  | forwarding header localAddr =>
      rw [hc] at hclient
      obtain ⟨hheader, -, hingress⟩ := hclient
      obtain ⟨hsni, hpeer, -⟩ := hi.truthful header hheader
      obtain ⟨e, he, hmode, hauth⟩ := hok.authorised header hheader
      rw [Passage.localAddr_of_tunnel he] at hingress
      refine ⟨e, header.hostname, localAddr, he, hsni, hauth, hingress, ?_⟩
      rw [← hpeer, ← hmode]

/-- The token of one client, and what it is granted. -/
def oneToken : Token := Vector.replicate 32 7

def oneGrant : ClientGrant := ⟨['c'], .roundRobin, [(['a'], .passthrough)]⟩

/-- A backend that knows one client. -/
def oneBackend (token : Token) (answer : Option ClientGrant) : Bool :=
  answer = if token = oneToken then some oneGrant else none

/-- The client is admitted for `a`. -/
def oneTunnel : List Step :=
  (Server.comeUp (.nth 0) ⟨oneToken, ['c']⟩ oneGrant ++ Server.welcome (.nth 0)).map .server

/-- A public connection comes and opens a stream, the client takes it, and all of it is copied. -/
def served : List Step :=
  oneTunnel ++ [.visit (.v4 192 0 2 1 4433), .move 0 (.send (Tunnelled.helloForA ++ [5])), .move 0 .readHello,
    .isTerminated 0, .lookup 0, .openBi 0 true, .move 0 (.sendHeader 58), .serve (.nth 0) 0 false,
    .move 0 (.connect true)] ++
    ([.up (.read 62), .up (.read 1), .up (.write 63), .inbound (.read 63), .inbound (.write 63)] :
      List Tunnelled.Action).map (.move 0)

theorem end_to_end_served :
    ∃ s p, Runs.run (step oneBackend oneCbor fun _ _ => some ['l']) served (start {}) = some s ∧
      p ∈ s.passages ∧ p.bytes.toService.written = Tunnelled.helloForA ++ [5] ∧
      ∃ e hello, p.tunnel = some e ∧ (e.conn, hello) ∈ s.server.hellos ∧ hello.token = oneToken := by
  have hrun : (Runs.run (step oneBackend oneCbor fun _ _ => some ['l']) served (start {})).any
      (fun s => (s.passages[0]?).any fun p => decide (p.bytes.toService.written = Tunnelled.helloForA ++ [5])) =
        true := by
    decide +kernel
  obtain ⟨s, hs, hp⟩ := (Option.any_eq_true _ _).mp hrun
  obtain ⟨p, hp, hwritten⟩ := (Option.any_eq_true _ _).mp hp
  rw [decide_eq_true_eq] at hwritten
  have hmem := List.mem_of_getElem? hp
  obtain ⟨e, sni, localAddr, he, -, ⟨hello, g, hhello, hgranted, -⟩, -⟩ :=
    (end_to_end hs hmem).2.2 (by rw [hwritten]; exact List.append_ne_nil_of_right_ne_nil _ (by simp))
  refine ⟨s, p, hs, hmem, hwritten, e, hello, he, hhello, ?_⟩
  -- no other token is granted anything
  by_contra hother
  rw [oneBackend, if_neg hother] at hgranted
  cases hgranted

end Deployment

end Tuyau
