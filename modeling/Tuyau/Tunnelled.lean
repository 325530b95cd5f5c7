import Tuyau.FrameReaders
import Tuyau.ReplayedLink

/-! # A passthrough connection from end to end

One public connection of a passthrough host crosses two programs.  The listener reads the ClientHello,
looks up a route for its SNI, opens a stream on the tunnel, sends a header on it, and pipes: one copy from
the connection, with the ClientHello before it, to the stream, and one back.  The client of the tunnel reads
the header, connects to the local service that its ingress map names, and copies both ways as well.  Every
party goes on when it likes, in pieces of any size, and every transport may be full for a while or break at any
time.

Each direction is a chain of two hops of the library of relays, once the ClientHello is counted as not yet
read (`ReplayedLink.view`) and the header is not counted at all (`Link.skip`).  `spec_step` says this of every
step: it keeps `Inv`, and in each direction it is a sequence of moves of the chain, until one of the two
programs gives the connection up. -/

namespace Tuyau

open AsciiText Relay

/-! ### The system -/

/-- How far the listener is with a public connection. -/
inductive Reception where
  | reading
  | routing (sni : Text)
  | opening (sent : ℕ)
  | piping
  | dropped
deriving DecidableEq

/-- How far the client of the tunnel is with a stream. -/
inductive Forwarder where
  | accepting
  | connecting (header : DataStreamHeader)
  | forwarding (header : DataStreamHeader) (localAddr : Text)
  | dropped
deriving DecidableEq

/-- The header that a client has read. -/
def Forwarder.header : Forwarder → Option DataStreamHeader
  | connecting header => some header
  | forwarding header _ => some header
  | _ => none

/-- The transports, one for each direction. -/
inductive Place where
  | pub
  | reply
  | request
  | response
  | toService
  | fromService
deriving DecidableEq

namespace Tunnelled

/-- A public connection, the stream of the tunnel it is piped to, and the connection to the local service;
each has a link for each direction, and there is a copy between any two of them. -/
structure State where
  pub : ReplayedLink
  reply : Link UInt8
  listener : Reception
  header : Option DataStreamHeader
  up : Copy UInt8
  down : Copy UInt8
  request : Link UInt8
  response : Link UInt8
  client : Forwarder
  inbound : Copy UInt8
  outbound : Copy UInt8
  toService : Link UInt8
  fromService : Link UInt8

def start : State where
  pub := .of .new
  reply := .new
  listener := .reading
  header := none
  up := .new
  down := .new
  request := .new
  response := .new
  client := .accepting
  inbound := .new
  outbound := .new
  toService := .new
  fromService := .new

/-- The steps of the public peer, of the listener, of the client of the tunnel, of the local service and of the
transports. -/
inductive Action where
  | send (bytes : Bytes)
  | close
  | receive (n : ℕ)
  | readHello
  | route (found : Option TlsMode)
  | sendHeader (n : ℕ)
  | drop
  | up (ev : CopyEvent)
  | down (ev : CopyEvent)
  | acceptBi
  | connect (ok : Bool)
  | skip
  | inbound (ev : CopyEvent)
  | outbound (ev : CopyEvent)
  | serve (n : ℕ)
  | answer (bytes : Bytes)
  | hangUp
  | hold (place : Place) (full : Bool)
  | cut (place : Place)

namespace State

variable (s : State)

/-- The listener gives up before it pipes.  Both halves of the connection and of the stream, if there is one
already, are dropped, and its copies never start. -/
def dropListener : State :=
  { s with
    listener := .dropped
    up := .ended false
    down := .ended false
    request := s.request.finish
    response := s.response.cut
    reply := s.reply.finish }

/-- The client gives up before it copies: it finishes its half of the stream and stops the other. -/
def dropClient : State :=
  { s with
    client := .dropped
    inbound := .ended false
    outbound := .ended false
    request := s.request.cut
    response := s.response.finish
    toService := s.toService.finish }

def holdAt (full : Bool) : Place → State
  | .pub => { s with pub := s.pub.hold full }
  | .reply => { s with reply := s.reply.hold full }
  | .request => { s with request := s.request.hold full }
  | .response => { s with response := s.response.hold full }
  | .toService => { s with toService := s.toService.hold full }
  | .fromService => { s with fromService := s.fromService.hold full }

def cutAt : Place → State
  | .pub => { s with pub := s.pub.cut }
  | .reply => { s with reply := s.reply.cut }
  | .request => { s with request := s.request.cut }
  | .response => { s with response := s.response.cut }
  | .toService => { s with toService := s.toService.cut }
  | .fromService => { s with fromService := s.fromService.cut }

end State

variable (cbor : Cbor DataStreamHeader) (peer : SocketAddr) (ingress : Text → Option Text)

/-- The bytes of the header of a stream. -/
def State.frame (s : State) : Bytes := (s.header.map cbor.encoding).getD []

/-- `read_client_hello` and `parse_sni`. -/
def readHello (s : State) : Option State :=
  match readClientHello [s.pub.raw.queue] with
  | .ok (hello, _) =>
      let s := { s with pub := .of (s.pub.raw.take hello.length) }
      match parseSni hello with
      | none => some s.dropListener
      | some sni => some { s with listener := .routing sni }
  | .error .unexpectedEof => if s.pub.raw.fin || s.pub.raw.broken then some s.dropListener else none
  | .error _ => some s.dropListener

/-- The result of `lookup`, and `open_tunnel_stream` up to the first byte of the header. -/
def openTunnelStream (s : State) (sni : Text) : Option TlsMode → State
  | none => s.dropListener
  | some mode =>
      let header : DataStreamHeader := ⟨sni, peer.toText, mode⟩
      match (FrameCodec.encode cbor.intoWriter header []).1 with
      | .error _ => s.dropListener
      | .ok () => { s with header := some header, listener := .opening 0 }

/-- The next bytes of the header are sent; with the last of them the listener starts to pipe. -/
def sendHeader (s : State) (sent n : ℕ) : Option State :=
  let frame := s.frame cbor
  if 0 < n ∧ sent + n ≤ frame.length ∧ s.request.Open then
    some { s with
      request := s.request.write ((frame.drop sent).take n)
      listener := if sent + n = frame.length then .piping else .opening (sent + n) }
  else none

/-- `accept_bi`: the header is read off the stream when all of it has come. -/
def acceptBi (s : State) : Option State :=
  match readFrame cbor.fromReader [s.request.queue] with
  | (.ok header, rest) =>
      some { s with
        request := s.request.take (s.request.queue.length - rest.flatten.length)
        client := .connecting header }
  | (.error .io, _) => if s.request.fin || s.request.broken then some s.dropClient else none
  | (.error _, _) => some s.dropClient

/-- `forward_stream` up to the copies. -/
def connect (s : State) (header : DataStreamHeader) (ok : Bool) : State :=
  match ingress header.hostname with
  | none => s.dropClient
  | some localAddr =>
      if ok then { s with client := .forwarding header localAddr } else s.dropClient

def step (s : State) : Action → Option State
  | .send bytes => if s.pub.raw.Open then some { s with pub := s.pub.write bytes } else none
  | .close => some { s with pub := s.pub.finish }
  | .receive n => if n ≤ s.reply.queue.length then some { s with reply := s.reply.take n } else none
  | .readHello => if s.listener = .reading then readHello s else none
  | .route found =>
      match s.listener with
      | .routing sni => some (openTunnelStream cbor peer s sni found)
      | _ => none
  | .sendHeader n =>
      match s.listener with
      | .opening sent => sendHeader cbor s sent n
      | _ => none
  | .drop =>
      -- a timeout, or an error of the connection or the tunnel
      if s.listener = .piping ∨ s.listener = .dropped then none else some s.dropListener
  | .up ev =>
      if s.listener = .piping then
        (s.pub.copyStep s.up s.request ev).map fun r => { s with pub := r.1, up := r.2.1, request := r.2.2 }
      else none
  | .down ev =>
      if s.listener = .piping then
        (copyStep copyCapacity s.response s.down s.reply ev).map fun r =>
          { s with response := r.1, down := r.2.1, reply := r.2.2 }
      else none
  | .acceptBi => if s.client = .accepting then acceptBi cbor s else none
  | .connect ok =>
      match s.client with
      | .connecting header => some (connect ingress s header ok)
      | _ => none
  | .skip =>
      -- the header does not come in time
      if s.client = .accepting then some s.dropClient else none
  | .inbound ev =>
      match s.client with
      | .forwarding _ _ =>
          (copyStep copyCapacity s.request s.inbound s.toService ev).map fun r =>
            { s with request := r.1, inbound := r.2.1, toService := r.2.2 }
      | _ => none
  | .outbound ev =>
      match s.client with
      | .forwarding _ _ =>
          (copyStep copyCapacity s.fromService s.outbound s.response ev).map fun r =>
            { s with fromService := r.1, outbound := r.2.1, response := r.2.2 }
      | _ => none
  | .serve n => if n ≤ s.toService.queue.length then some { s with toService := s.toService.take n } else none
  | .answer bytes =>
      if s.fromService.Open then some { s with fromService := s.fromService.write bytes } else none
  | .hangUp => some { s with fromService := s.fromService.finish }
  | .hold place full => some (s.holdAt full place)
  | .cut place => some (s.cutAt place)

/-! ### What has been sent and read -/

/-- Where the listener is, and what it has done to get there. -/
def ListenerInv (s : State) : Prop :=
  match s.listener with
  | .reading => s.header = none ∧ s.pub.raw.read = []
  | .routing sni => s.header = none ∧ parseSni s.pub.prefixBytes = some sni
  | .opening sent => s.header.isSome ∧ s.request.written = (s.frame cbor).take sent
  | .piping => s.header.isSome ∧ s.frame cbor <+: s.request.written
  | .dropped => True

/-- Where the client is, and what it has read to get there. -/
def ClientInv (s : State) : Prop :=
  match s.client with
  | .accepting => s.request.read = [] ∧ s.toService.written = []
  | .connecting header =>
      s.header = some header ∧ (s.frame cbor).length ≤ s.request.read.length ∧ s.toService.written = []
  | .forwarding header localAddr =>
      s.header = some header ∧ (s.frame cbor).length ≤ s.request.read.length ∧
        ingress header.hostname = some localAddr
  | .dropped => s.toService.written = []

/-- Before it pipes the listener sends nothing but the header, which says what it knows. -/
structure Inv (s : State) : Prop where
  truthful : ∀ header, s.header = some header → parseSni s.pub.prefixBytes = some header.hostname ∧
    header.peerAddr = peer.toText ∧ cbor.Fits header
  sent : s.listener ≠ .piping → s.request.written <+: s.frame cbor
  listener : ListenerInv cbor s
  client : ClientInv cbor ingress s

variable {cbor peer ingress} {s s' : State} {a : Action}

theorem inv_start : Inv cbor peer ingress start where
  truthful := fun _ h => nomatch h
  sent := fun _ => List.prefix_rfl
  listener := ⟨rfl, rfl⟩
  client := ⟨rfl, rfl⟩

theorem encoding_eq {header : DataStreamHeader} {payload : Bytes}
    (hp : cbor.intoWriter header = .ok payload) (hmax : payload.length ≤ maxFrameSize) :
    cbor.encoding header = frame payload := by
  rw [Cbor.encoding, encode_of_fits hp hmax, List.nil_append]

theorem frame_of_header {header : DataStreamHeader} (h : s.header = some header) :
    s.frame cbor = cbor.encoding header := by
  rw [State.frame, h]
  rfl

theorem frame_of_none (cbor : Cbor DataStreamHeader) (h : s.header = none) : s.frame cbor = [] := by
  rw [State.frame, h]
  rfl

/-- What a client reads as a header is the header, and no byte behind it. -/
theorem header_of_readFrame (hi : Inv cbor peer ingress s) (hread : s.request.read = [])
    {header : DataStreamHeader} {rest : List Bytes}
    (h : readFrame cbor.fromReader [s.request.queue] = (.ok header, rest)) :
    s.header = some header ∧ s.request.queue.length - rest.flatten.length = (s.frame cbor).length ∧
      (s.frame cbor).length ≤ s.request.written.length := by
  have hqueue : s.request.queue = s.request.written := by
    have hwhole := s.request.read_append_queue
    rwa [hread, List.nil_append] at hwhole
  have hflat : ([s.request.queue] : List Bytes).flatten = s.request.written := by
    rw [List.flatten_singleton, hqueue]
  -- less than a frame is no header
  have hclass : classify s.request.written ≠ .incomplete := by
    intro hpart
    have := readFrame_incomplete cbor.fromReader (hflat ▸ hpart)
    rw [h] at this
    cases this
  cases hheader : s.header with
  | none =>
      have hframe := frame_of_none cbor hheader
      have hpiping : s.listener ≠ .piping := by
        intro hp
        have hl := hi.listener
        rw [ListenerInv, hp, hheader] at hl
        exact absurd hl.1 Bool.false_ne_true
      have hnil := hi.sent hpiping
      rw [hframe, List.prefix_nil] at hnil
      rw [hnil] at hclass
      exact absurd (by decide) hclass
  | some header₀ =>
      obtain ⟨-, -, payload, hp, hmax⟩ := hi.truthful header₀ hheader
      have hframe : s.frame cbor = frame payload :=
        (frame_of_header hheader).trans (encoding_eq hp hmax)
      have hall : s.frame cbor <+: s.request.written := by
        by_cases hpiping : s.listener = .piping
        · have hl := hi.listener
          rw [ListenerInv, hpiping] at hl
          exact hl.2
        · have hpart := hi.sent hpiping
          rw [hframe] at hpart ⊢
          rw [not_imp_comm.mp (classify_of_isPrefix hmax hpart) hclass]
      obtain ⟨more, hmore⟩ := hall
      rw [hframe] at hmore ⊢
      have hwhole : classify ([s.request.queue] : List Bytes).flatten = .frame payload more := by
        rw [hflat, ← hmore]
        exact classify_frame_append hmax more
      obtain ⟨left, hleft, hrest⟩ := readFrame_frame cbor.fromReader hwhole
      rw [h, cbor.fromReader_intoWriter hp] at hleft
      cases hleft
      refine ⟨rfl, ?_, ?_⟩
      · rw [hrest, hqueue, ← hmore, List.length_append, Nat.add_sub_cancel]
      · rw [← hmore, List.length_append]
        exact Nat.le_add_right _ _

/-- What the listener reads first is what it gives back. -/
theorem read_of_readClientHello (hread : s.pub.raw.read = []) {hello : Bytes} {rest : List Bytes}
    (h : readClientHello [s.pub.raw.queue] = .ok (hello, rest)) :
    (s.pub.raw.take hello.length).read = hello := by
  have hstart : StartsWithHandshake ([s.pub.raw.queue] : List Bytes).flatten := by
    by_contra hno
    obtain ⟨e, he⟩ := readClientHello_error hno
    rw [h] at he
    cases he
  obtain ⟨inner, hok, -⟩ := readClientHello_ok hstart
  rw [h] at hok
  obtain ⟨rfl, -⟩ := Prod.mk.inj (Except.ok.inj hok)
  rw [Link.read_take, hread, List.nil_append, List.flatten_singleton, List.length_take,
    List.take_eq_take_min]
  simp

/-! ### Both directions as chains -/

variable (cbor) in
/-- The direction from the public peer to the service. -/
def State.forth (s : State) : Chain UInt8 :=
  ⟨s.pub.view, [⟨s.up, s.request.skip (s.frame cbor).length⟩, ⟨s.inbound, s.toService⟩]⟩

/-- The direction from the service to the public peer. -/
def State.back (s : State) : Chain UInt8 :=
  ⟨s.fromService, [⟨s.outbound, s.response⟩, ⟨s.down, s.reply⟩]⟩

namespace Action

/-- What an action does in the first direction, unless it drops the connection or the stream. -/
def forth : Action → List (Move UInt8)
  | send bytes => [.write bytes]
  | close => [.finish]
  | up ev => [.hop 0 ev]
  | inbound ev => [.hop 1 ev]
  | serve n => [.take n]
  | hold .pub full => [.hold 0 full]
  | hold .request full => [.hold 1 full]
  | hold .toService full => [.hold 2 full]
  | cut .pub => [.cut 0]
  | cut .request => [.cut 1]
  | cut .toService => [.cut 2]
  | _ => []

/-- What an action does in the second direction. -/
def back : Action → List (Move UInt8)
  | answer bytes => [.write bytes]
  | hangUp => [.finish]
  | outbound ev => [.hop 0 ev]
  | down ev => [.hop 1 ev]
  | receive n => [.take n]
  | hold .fromService full => [.hold 0 full]
  | hold .response full => [.hold 1 full]
  | hold .reply full => [.hold 2 full]
  | cut .fromService => [.cut 0]
  | cut .response => [.cut 1]
  | cut .reply => [.cut 2]
  | _ => []

end Action

variable (cbor) in
/-- What a step can be: its moves in both directions, which leave a listener that pipes and a client that
copies as they are, or the end of the connection or of the stream before that. -/
inductive Outcome (s : State) (a : Action) (s' : State) : Prop
  | moves (forth : Runs.run (Chain.move copyCapacity) a.forth (s.forth cbor) = some (s'.forth cbor))
      (back : Runs.run (Chain.move copyCapacity) a.back s.back = some s'.back)
      (piping : s.listener = .piping → s'.listener = .piping)
      (forwarding : ∀ header localAddr, s.client = .forwarding header localAddr → s'.client = s.client)
  | listenerDropped (t : State) (forth : t.forth cbor = s.forth cbor) (back : t.back = s.back)
      (piping : s.listener ≠ .piping) (dropped : s' = t.dropListener)
  | clientDropped (forwarding : ∀ header localAddr, s.client ≠ .forwarding header localAddr)
      (dropped : s' = s.dropClient)

/-- A step that only the parties themselves can see. -/
theorem Outcome.of_same (hforth : s'.forth cbor = s.forth cbor) (hback : s'.back = s.back)
    (hnone : a.forth = [] ∧ a.back = []) (hpiping : s.listener = .piping → s'.listener = .piping)
    (hforwarding : ∀ header localAddr, s.client = .forwarding header localAddr → s'.client = s.client) :
    Outcome cbor s a s' := by
  refine .moves ?_ ?_ hpiping hforwarding
  · rw [hnone.1, Runs.run, hforth]
  · rw [hnone.2, Runs.run, hback]

/-- The first copy of a chain of two hops goes on. -/
theorem hop_zero {source src dst : Link UInt8} {copy : Copy UInt8} {ev : CopyEvent} (first second : Hop UInt8)
    (h : copyStep copyCapacity source first.copy first.out ev = some (src, copy, dst)) :
    Chain.move copyCapacity ⟨source, [first, second]⟩ (.hop 0 ev) = some ⟨src, [⟨copy, dst⟩, second]⟩ := by
  rw [Chain.move, hopAt, h]
  rfl

/-- The second copy of a chain of two hops goes on. -/
theorem hop_one {source src dst : Link UInt8} {copy : Copy UInt8} {ev : CopyEvent} (first second : Hop UInt8)
    (h : copyStep copyCapacity first.out second.copy second.out ev = some (src, copy, dst)) :
    Chain.move copyCapacity ⟨source, [first, second]⟩ (.hop 1 ev) =
      some ⟨source, [{ first with out := src }, ⟨copy, dst⟩]⟩ := by
  rw [Chain.move, hopAt, hopAt, h]
  rfl

/-! ### What a step does -/

variable (cbor peer ingress) in
/-- A step keeps the invariant and has an outcome. -/
def Spec (s : State) (a : Action) (s' : State) : Prop := Inv cbor peer ingress s' ∧ Outcome cbor s a s'

theorem spec_dropListener (hi : Inv cbor peer ingress s) (hp : s.listener ≠ .piping) :
    Spec cbor peer ingress s a s.dropListener :=
  ⟨⟨hi.truthful, fun _ => hi.sent hp, trivial, hi.client⟩, .listenerDropped s rfl rfl hp rfl⟩

theorem spec_dropClient (hi : Inv cbor peer ingress s) (hquiet : s.toService.written = [])
    (hf : ∀ header localAddr, s.client ≠ .forwarding header localAddr) :
    Spec cbor peer ingress s a s.dropClient :=
  ⟨⟨hi.truthful, hi.sent, hi.listener, hquiet⟩, .clientDropped hf rfl⟩

/-- The client does not mind what is sent, as long as the header stays. -/
theorem clientInv_of_request {request : Link UInt8} (hread : s.request.read <+: request.read)
    (hfirst : s.client = .accepting → request.read = s.request.read) (hc : ClientInv cbor ingress s) :
    ClientInv cbor ingress { s with request } := by
  unfold ClientInv at hc ⊢
  dsimp only
  cases hcl : s.client with
  | accepting =>
      rw [hcl] at hc
      exact ⟨(hfirst hcl).trans hc.1, hc.2⟩
  | connecting header =>
      rw [hcl] at hc
      exact ⟨hc.1, hc.2.1.trans hread.length_le, hc.2.2⟩
  | forwarding header localAddr =>
      rw [hcl] at hc
      exact ⟨hc.1, hc.2.1.trans hread.length_le, hc.2.2⟩
  | dropped =>
      rw [hcl] at hc
      exact hc

/-- Without a header there is no client that has read one. -/
theorem clientInv_of_none {header : Option DataStreamHeader} {listener : Reception} (hnone : s.header = none)
    (hc : ClientInv cbor ingress s) : ClientInv cbor ingress { s with header, listener } := by
  unfold ClientInv at hc ⊢
  dsimp only
  cases hcl : s.client with
  | accepting =>
      rw [hcl] at hc
      exact hc
  | connecting header =>
      rw [hcl] at hc
      exact absurd (hnone.symm.trans hc.1) (by simp)
  | forwarding header localAddr =>
      rw [hcl] at hc
      exact absurd (hnone.symm.trans hc.1) (by simp)
  | dropped =>
      rw [hcl] at hc
      exact hc

/-- Reading the ClientHello is no reading in the eyes of the copy that gets it again. -/
theorem view_readHello (hread : s.pub.raw.read = []) (n : ℕ) :
    (ReplayedLink.of (s.pub.raw.take n)).view = s.pub.view := by
  have hgiven : s.pub.given = [] := List.prefix_nil.mp (hread ▸ s.pub.given_isPrefix)
  rw [ReplayedLink.view_of]
  exact Link.ext rfl hgiven.symm rfl rfl rfl

theorem spec_readHello (hi : Inv cbor peer ingress s) (hl : s.listener = .reading)
    (h : readHello s = some s') : Spec cbor peer ingress s .readHello s' := by
  have hp : s.listener ≠ .piping := by simp [hl]
  have hreading := hi.listener
  rw [ListenerInv, hl] at hreading
  obtain ⟨hnone, hread⟩ := hreading
  rw [readHello] at h
  split at h
  · rename_i hello rest hhello
    have htruth : ∀ header, s.header = some header →
        parseSni (s.pub.raw.take hello.length).read = some header.hostname ∧
          header.peerAddr = peer.toText ∧ cbor.Fits header :=
      fun header hh => absurd (hnone.symm.trans hh) (by simp)
    have hforth : ∀ listener, State.forth cbor
        { s with pub := .of (s.pub.raw.take hello.length), listener } = s.forth cbor := by
      intro listener
      rw [State.forth]
      dsimp only
      rw [view_readHello hread]
      rfl
    dsimp only at h
    split at h
    · cases h
      exact ⟨⟨htruth, fun _ => hi.sent hp, trivial, hi.client⟩,
        .listenerDropped _ (hforth s.listener) rfl hp rfl⟩
    · rename_i sni hsni
      cases h
      refine ⟨⟨htruth, fun _ => hi.sent hp, ⟨hnone, ?_⟩, hi.client⟩,
        .of_same (hforth _) rfl ⟨rfl, rfl⟩ (fun h => absurd h hp) fun _ _ _ => rfl⟩
      change parseSni (s.pub.raw.take hello.length).read = some sni
      rw [read_of_readClientHello hread hhello]
      exact hsni
  · obtain ⟨-, h⟩ := Option.ite_none_right_eq_some.mp h
    cases h
    exact spec_dropListener hi hp
  · cases h
    exact spec_dropListener hi hp

theorem spec_route {sni : Text} (hi : Inv cbor peer ingress s) (hl : s.listener = .routing sni)
    (found : Option TlsMode) :
    Spec cbor peer ingress s (.route found) (openTunnelStream cbor peer s sni found) := by
  have hp : s.listener ≠ .piping := by simp [hl]
  have hrouting := hi.listener
  rw [ListenerInv, hl] at hrouting
  obtain ⟨hnone, hsni⟩ := hrouting
  cases found with
  | none => exact spec_dropListener hi hp
  | some mode =>
      rw [openTunnelStream]
      split
      · exact spec_dropListener hi hp
      · rename_i henc
        obtain ⟨payload, hpayload, hmax, -⟩ := payload_of_encode (Prod.ext henc rfl)
        have hempty : s.request.written = [] := by
          have hsent := hi.sent hp
          rwa [frame_of_none cbor hnone, List.prefix_nil] at hsent
        have hread : s.request.read = [] := List.prefix_nil.mp (hempty ▸ s.request.fifo)
        -- nothing was written yet, so that skipping the header skips nothing
        have hskip : ∀ k, s.request.skip k = s.request := fun k =>
          Link.ext (by simp [Link.skip, hempty]) (by simp [Link.skip, hread]) rfl rfl rfl
        refine ⟨⟨?_, fun _ => ?_, ⟨rfl, hempty⟩, clientInv_of_none hnone hi.client⟩,
          .of_same ?_ rfl ⟨rfl, rfl⟩ (fun h => absurd h hp) fun _ _ _ => rfl⟩
        · rintro header ⟨⟩
          exact ⟨hsni, rfl, payload, hpayload, hmax⟩
        · change s.request.written <+: _
          rw [hempty]
          exact List.nil_prefix
        · simp only [State.forth, hskip]

theorem spec_sendHeader {sent n : ℕ} (hi : Inv cbor peer ingress s) (hl : s.listener = .opening sent)
    (h : sendHeader cbor s sent n = some s') : Spec cbor peer ingress s (.sendHeader n) s' := by
  have hp : s.listener ≠ .piping := by simp [hl]
  have hopening := hi.listener
  rw [ListenerInv, hl] at hopening
  obtain ⟨hsome, hwritten⟩ := hopening
  obtain ⟨⟨-, hle, -⟩, h⟩ := Option.ite_none_right_eq_some.mp h
  cases h
  have hmore : s.request.written ++ ((s.frame cbor).drop sent).take n = (s.frame cbor).take (sent + n) := by
    rw [hwritten, List.take_add]
  -- the header is skipped, before and after
  have hskip : (s.request.write (((s.frame cbor).drop sent).take n)).skip (s.frame cbor).length =
      s.request.skip (s.frame cbor).length := by
    refine Link.ext ?_ rfl rfl rfl rfl
    change (s.request.written ++ _).drop _ = s.request.written.drop _
    rw [hmore, hwritten, List.drop_of_length_le (List.length_take_le' _ _),
      List.drop_of_length_le (List.length_take_le' _ _)]
  refine ⟨⟨hi.truthful, fun _ => ?_, ?_, ?_⟩,
    .of_same ?_ rfl ⟨rfl, rfl⟩ (fun h => absurd h hp) fun _ _ _ => rfl⟩
  · change s.request.written ++ ((s.frame cbor).drop sent).take n <+: s.frame cbor
    rw [hmore]
    exact List.take_prefix _ _
  · unfold ListenerInv
    by_cases hlast : sent + n = (s.frame cbor).length
    · rw [if_pos hlast]
      refine ⟨hsome, ?_⟩
      change s.frame cbor <+: s.request.written ++ ((s.frame cbor).drop sent).take n
      rw [hmore, hlast, List.take_length]
    · rw [if_neg hlast]
      exact ⟨hsome, hmore⟩
  · exact clientInv_of_request (s := { s with listener := _ }) List.prefix_rfl (fun _ => rfl) hi.client
  · exact congrArg (fun out => Chain.mk s.pub.view [⟨s.up, out⟩, ⟨s.inbound, s.toService⟩]) hskip

theorem spec_acceptBi (hi : Inv cbor peer ingress s) (hc : s.client = .accepting)
    (h : acceptBi cbor s = some s') : Spec cbor peer ingress s .acceptBi s' := by
  have hf : ∀ header localAddr, s.client ≠ .forwarding header localAddr := by simp [hc]
  have hclient := hi.client
  rw [ClientInv, hc] at hclient
  obtain ⟨hread, hquiet⟩ := hclient
  rw [acceptBi] at h
  split at h
  · rename_i header rest hframe
    cases h
    obtain ⟨hheader, hlen, hle⟩ := header_of_readFrame hi hread hframe
    -- what is read is the header, so that nothing behind it was read
    have hskip : (s.request.take (s.request.queue.length - rest.flatten.length)).skip
        (s.frame cbor).length = s.request.skip (s.frame cbor).length := by
      refine Link.ext rfl ?_ rfl rfl rfl
      change (s.request.written.take (s.request.read.length + _)).drop _ = s.request.read.drop _
      rw [hlen, hread, List.length_nil, zero_add, List.drop_nil,
        List.drop_of_length_le (List.length_take_le _ _)]
    refine ⟨⟨hi.truthful, hi.sent, hi.listener, hheader, ?_, hquiet⟩,
      .of_same ?_ rfl ⟨rfl, rfl⟩ id fun header localAddr h => absurd h (hf header localAddr)⟩
    · change _ ≤ (s.request.written.take (s.request.read.length + _)).length
      rw [hlen, hread, List.length_nil, zero_add, List.length_take_of_le hle]
      exact le_rfl
    · exact congrArg (fun out => Chain.mk s.pub.view [⟨s.up, out⟩, ⟨s.inbound, s.toService⟩]) hskip
  · obtain ⟨-, h⟩ := Option.ite_none_right_eq_some.mp h
    cases h
    exact spec_dropClient hi hquiet hf
  · cases h
    exact spec_dropClient hi hquiet hf

theorem spec_connect {header : DataStreamHeader} (hi : Inv cbor peer ingress s)
    (hc : s.client = .connecting header) (ok : Bool) :
    Spec cbor peer ingress s (.connect ok) (connect ingress s header ok) := by
  have hf : ∀ header localAddr, s.client ≠ .forwarding header localAddr := by simp [hc]
  have hclient := hi.client
  rw [ClientInv, hc] at hclient
  obtain ⟨hheader, hlen, hquiet⟩ := hclient
  rw [connect]
  split
  · exact spec_dropClient hi hquiet hf
  · rename_i localAddr haddr
    cases ok with
    | false => exact spec_dropClient hi hquiet hf
    | true =>
        exact ⟨⟨hi.truthful, hi.sent, hi.listener, hheader, hlen, haddr⟩,
          .of_same rfl rfl ⟨rfl, rfl⟩ id fun header localAddr h => absurd h (hf header localAddr)⟩

theorem spec_up {pub : ReplayedLink} {up : Copy UInt8} {request : Link UInt8} {ev : CopyEvent}
    (hi : Inv cbor peer ingress s) (hl : s.listener = .piping)
    (h : s.pub.copyStep s.up s.request ev = some (pub, up, request)) :
    Spec cbor peer ingress s (.up ev) { s with pub, up, request } := by
  have hpiping := hi.listener
  rw [ListenerInv, hl] at hpiping
  have hstep := ReplayedLink.copyStep_view h
  have hread := (copyStep_dst hstep).1
  have hskip : copyStep copyCapacity s.pub.view s.up (s.request.skip (s.frame cbor).length) ev =
      some (pub.view, up, request.skip (s.frame cbor).length) := by
    rw [copyStep_skip_dst hpiping.2.length_le, hstep]
    rfl
  refine ⟨⟨?_, fun hp => absurd hl hp, ?_, ?_⟩,
    .moves (Chain.run_single (hop_zero _ _ hskip)) rfl (fun _ => hl) fun _ _ _ => rfl⟩
  · intro header hheader
    change parseSni pub.prefixBytes = _ ∧ _
    rw [ReplayedLink.prefixBytes_copyStep h]
    exact hi.truthful header hheader
  · unfold ListenerInv
    rw [hl]
    exact ⟨hpiping.1, hpiping.2.trans (copyStep_grows hstep).2⟩
  · exact clientInv_of_request (s := { s with pub, up }) (hread ▸ List.prefix_rfl) (fun _ => hread) hi.client

theorem spec_inbound {request toService : Link UInt8} {inbound : Copy UInt8} {ev : CopyEvent}
    {header : DataStreamHeader} {localAddr : Text}
    (hi : Inv cbor peer ingress s) (hc : s.client = .forwarding header localAddr)
    (h : copyStep copyCapacity s.request s.inbound s.toService ev = some (request, inbound, toService)) :
    Spec cbor peer ingress s (.inbound ev) { s with request, inbound, toService } := by
  have hclient := hi.client
  rw [ClientInv, hc] at hclient
  have hwritten := (copyStep_src h).1
  have hskip : copyStep copyCapacity (s.request.skip (s.frame cbor).length) s.inbound s.toService ev =
      some (request.skip (s.frame cbor).length, inbound, toService) := by
    rw [copyStep_skip_src hclient.2.1, h]
    rfl
  refine ⟨⟨hi.truthful, ?_, ?_, ?_⟩,
    .moves (Chain.run_single (hop_one ⟨s.up, s.request.skip _⟩ _ hskip)) rfl id fun _ _ _ => rfl⟩
  · intro hp
    change request.written <+: _
    rw [hwritten]
    exact hi.sent hp
  · have hl := hi.listener
    unfold ListenerInv at hl ⊢
    rw [← hwritten] at hl
    exact hl
  · unfold ClientInv
    rw [hc]
    exact ⟨hclient.1, hclient.2.1.trans (copyStep_grows h).1.length_le, hclient.2.2⟩

/-- A step that leaves the listener, the client and the stream of requests as they are. -/
theorem spec_of_moves (hi : Inv cbor peer ingress s') (hl : s'.listener = s.listener)
    (hc : s'.client = s.client)
    (hforth : Runs.run (Chain.move copyCapacity) a.forth (s.forth cbor) = some (s'.forth cbor))
    (hback : Runs.run (Chain.move copyCapacity) a.back s.back = some s'.back) :
    Spec cbor peer ingress s a s' :=
  ⟨hi, .moves hforth hback (fun h => hl.trans h) fun _ _ _ => hc⟩

/-- **Every step keeps the invariant and has an outcome.** -/
theorem spec_step (hi : Inv cbor peer ingress s) (h : step cbor peer ingress s a = some s') :
    Spec cbor peer ingress s a s' := by
  cases a with
  | readHello =>
      obtain ⟨hl, h⟩ := Option.ite_none_right_eq_some.mp h
      exact spec_readHello hi hl h
  | route found =>
      rw [step] at h
      split at h
      · rename_i sni hl
        cases h
        exact spec_route hi hl found
      · cases h
  | sendHeader n =>
      rw [step] at h
      split at h
      · rename_i sent hl
        exact spec_sendHeader hi hl h
      · cases h
  | drop =>
      obtain ⟨hl, h⟩ := Option.ite_none_left_eq_some.mp h
      cases h
      exact spec_dropListener hi fun hp => hl (.inl hp)
  | up ev =>
      obtain ⟨hl, h⟩ := Option.ite_none_right_eq_some.mp h
      obtain ⟨⟨pub, up, request⟩, hstep, hr⟩ := Option.map_eq_some_iff.mp h
      cases hr
      exact spec_up hi hl hstep
  | acceptBi =>
      obtain ⟨hc, h⟩ := Option.ite_none_right_eq_some.mp h
      exact spec_acceptBi hi hc h
  | connect ok =>
      rw [step] at h
      split at h
      · rename_i header hc
        cases h
        exact spec_connect hi hc ok
      · cases h
  | skip =>
      obtain ⟨hc, h⟩ := Option.ite_none_right_eq_some.mp h
      cases h
      have hclient := hi.client
      rw [ClientInv, hc] at hclient
      exact spec_dropClient hi hclient.2 (by simp [hc])
  | inbound ev =>
      rw [step] at h
      split at h
      · rename_i header localAddr hc
        obtain ⟨⟨request, inbound, toService⟩, hstep, hr⟩ := Option.map_eq_some_iff.mp h
        cases hr
        exact spec_inbound hi hc hstep
      · cases h
  | outbound ev =>
      rw [step] at h
      split at h
      · obtain ⟨⟨fromService, outbound, response⟩, hstep, hr⟩ := Option.map_eq_some_iff.mp h
        cases hr
        exact spec_of_moves ⟨hi.truthful, hi.sent, hi.listener, hi.client⟩ rfl rfl rfl
          (Chain.run_single (hop_zero ⟨s.outbound, s.response⟩ _ hstep))
      · cases h
  | down ev =>
      obtain ⟨-, h⟩ := Option.ite_none_right_eq_some.mp h
      obtain ⟨⟨response, down, reply⟩, hstep, hr⟩ := Option.map_eq_some_iff.mp h
      cases hr
      exact spec_of_moves ⟨hi.truthful, hi.sent, hi.listener, hi.client⟩ rfl rfl rfl
        (Chain.run_single (hop_one ⟨s.outbound, s.response⟩ ⟨s.down, s.reply⟩ hstep))
  | send bytes =>
      obtain ⟨hopen, h⟩ := Option.ite_none_right_eq_some.mp h
      cases h
      exact spec_of_moves ⟨hi.truthful, hi.sent, hi.listener, hi.client⟩ rfl rfl
        (Chain.run_single (if_pos hopen)) rfl
  | close =>
      cases h
      exact spec_of_moves ⟨hi.truthful, hi.sent, hi.listener, hi.client⟩ rfl rfl rfl rfl
  | answer bytes =>
      obtain ⟨hopen, h⟩ := Option.ite_none_right_eq_some.mp h
      cases h
      exact spec_of_moves ⟨hi.truthful, hi.sent, hi.listener, hi.client⟩ rfl rfl rfl
        (Chain.run_single (if_pos hopen))
  | hangUp =>
      cases h
      exact spec_of_moves ⟨hi.truthful, hi.sent, hi.listener, hi.client⟩ rfl rfl rfl rfl
  | receive n =>
      obtain ⟨hn, h⟩ := Option.ite_none_right_eq_some.mp h
      cases h
      exact spec_of_moves ⟨hi.truthful, hi.sent, hi.listener, hi.client⟩ rfl rfl rfl
        (Chain.run_single (if_pos hn))
  | serve n =>
      obtain ⟨hn, h⟩ := Option.ite_none_right_eq_some.mp h
      cases h
      exact spec_of_moves ⟨hi.truthful, hi.sent, hi.listener, hi.client⟩ rfl rfl
        (Chain.run_single (if_pos hn)) rfl
  | hold place full | cut place =>
      cases h
      cases place <;>
        exact spec_of_moves ⟨hi.truthful, hi.sent, hi.listener, hi.client⟩ rfl rfl rfl rfl

theorem inv_run {actions : List Action} (h : Runs.run (step cbor peer ingress) actions start = some s) :
    Inv cbor peer ingress s :=
  Runs.run_invariant inv_start (fun _ _ _ hi h => (spec_step hi h).1) h

end Tunnelled

end Tuyau
