import Tuyau.AddrParse
import Tuyau.FrameReaders

/-! # Listeners on a tunnel

An application that has no local port takes its connections from a `TunnelListener`, or from a
`TlsTunnelListener` if it ends TLS itself.  Each stream that the server opens is one connection: its header
is read, the address in it is parsed, and the rest of the stream is the connection.  A web server accepts
in a loop that skips every stream with an error and waits for ever once the tunnel is gone.

The main result is `listener_accepts`: over the whole life of a tunnel the loop gives the streams of the
server in the order in which they arrive, without those whose header did not come whole or in time, each with
the host, the mode and the address of its public peer and with the bytes behind its header.  There is no limit
on the time of a TLS handshake, and the next stream is taken only after it: a peer that does not go on with
its handshake stops the loop.  The flow information of an IPv6 address is no part of its text, and of the
addresses here. -/

namespace Tuyau

open AsciiText

/-! ### The listeners -/

/-- `ClientError`, as far as an `accept` returns it. -/
inductive AcceptError where
  | quicConnection
  | protocol (error : ProtocolError)
  | responseTimeout
  | io
deriving DecidableEq

/-- A stream that the server has opened: what can be read of it before it ends or breaks, and whether the time
for its header runs out first. -/
structure Incoming where
  recv : List Bytes
  late : Bool

structure TunnelConnection where
  recv : List Bytes
  header : DataStreamHeader

/-- How a TLS handshake goes on a connection: there is a decrypted stream, or an error, or its peer keeps it
waiting. -/
inductive TlsHandshake (T : Type*) where
  | completed (tls : T)
  | failed
  | stalled

namespace TlsHandshake

variable {T : Type*}

def toOption : TlsHandshake T → Option T
  | completed tls => some tls
  | _ => none

def ends : TlsHandshake T → Bool
  | stalled => false
  | _ => true

end TlsHandshake

/-- The address that stands for an unreadable one. -/
def unspecified : SocketAddr := .v4 0 0 0 0 0

section

variable (fromReader : Bytes → Except Text DataStreamHeader)

/-- `TunnelListener::accept`, from what `accept_bi` gives: a stream, or nothing when the tunnel is gone. -/
def TunnelListener.accept : Option Incoming → Except AcceptError (TunnelConnection × SocketAddr)
  | none => .error .quicConnection
  | some stream =>
      if stream.late then .error .responseTimeout
      else
        match readFrame fromReader stream.recv with
        | (.error e, _) => .error (.protocol e)
        | (.ok header, recv) =>
            .ok (⟨recv, header⟩, (SocketAddr.parse header.peerAddr).getD unspecified)

/-- `TlsTunnelListener::accept`, with the handshake of its acceptor; `none` if it waits for ever. -/
def TlsTunnelListener.accept {T : Type*} (acceptor : TunnelConnection → TlsHandshake T)
    (stream : Option Incoming) : Option (Except AcceptError (T × SocketAddr)) :=
  match TunnelListener.accept fromReader stream with
  | .error e => some (.error e)
  | .ok (conn, addr) =>
      match acceptor conn with
      | .completed tls => some (.ok (tls, addr))
      | .failed => some (.error .io)
      | .stalled => none

end

section

variable {C : Type*} (accept : Option Incoming → Option (Except AcceptError (C × SocketAddr)))

/-- `accept` of `axum::serve::Listener`, the same for both listeners, on the streams that are still to come;
`none` if it waits for ever. -/
def axumAccept : List Incoming → Option ((C × SocketAddr) × List Incoming)
  | [] => (accept none).bind fun result => result.toOption.map fun pair => (pair, [])
  | stream :: rest =>
      match accept (some stream) with
      | none => none
      | some (.ok pair) => some (pair, rest)
      | some (.error .quicConnection) => none
      | some (.error _) => axumAccept rest

/-- What the first `n` calls of `accept` give. -/
def axumServe : ℕ → List Incoming → List (C × SocketAddr)
  | 0, _ => []
  | n + 1, streams =>
      match axumAccept accept streams with
      | none => []
      | some (pair, rest) => pair :: axumServe n rest

/-- The connections among the streams, up to one that never is accepted or refused. -/
def connections (streams : List Incoming) : List (C × SocketAddr) :=
  (streams.takeWhile fun stream => (accept (some stream)).isSome).filterMap fun stream =>
    (accept (some stream)).bind Except.toOption

/-- An `accept` that fails for good exactly when the tunnel is gone. -/
structure EndsWithTunnel : Prop where
  gone : accept none = some (.error .quicConnection)
  there : ∀ stream, accept (some stream) ≠ some (.error .quicConnection)

end

section

variable {C : Type*} {accept : Option Incoming → Option (Except AcceptError (C × SocketAddr))}

/-- An accept gives the next connection, and leaves the streams behind it. -/
theorem axumAccept_spec (h : EndsWithTunnel accept) (streams : List Incoming) :
    (axumAccept accept streams = none ∧ connections accept streams = []) ∨
      ∃ pair rest, axumAccept accept streams = some (pair, rest) ∧
        connections accept streams = pair :: connections accept rest := by
  induction streams with
  | nil =>
      refine .inl ⟨?_, rfl⟩
      rw [axumAccept, h.gone]
      rfl
  | cons stream rest ih =>
      have hthere := h.there stream
      cases hone : accept (some stream) with
      | none =>
          refine .inl ⟨?_, ?_⟩
          · rw [axumAccept, hone]
          · rw [connections, List.takeWhile_cons_of_neg (by simp [hone])]
            rfl
      | some result =>
          have hcons : connections accept (stream :: rest) =
              result.toOption.toList ++ connections accept rest := by
            rw [connections, List.takeWhile_cons_of_pos (by simp [hone]), List.filterMap_cons, hone]
            cases result <;> rfl
          cases result with
          | ok pair =>
              refine .inr ⟨pair, rest, ?_, hcons⟩
              rw [axumAccept, hone]
          | error e =>
              have hskip : axumAccept accept (stream :: rest) = axumAccept accept rest := by
                rw [axumAccept, hone]
                cases e with
                | quicConnection => exact absurd hone hthere
                | protocol _ | responseTimeout | io => rfl
              rw [hskip, hcons]
              exact ih

/-- All accepts together give the connections in order. -/
theorem axumServe_eq (h : EndsWithTunnel accept) (n : ℕ) (streams : List Incoming) :
    axumServe accept n streams = (connections accept streams).take n := by
  induction n generalizing streams with
  | zero => rfl
  | succ n ih =>
      rw [axumServe]
      rcases axumAccept_spec h streams with ⟨hwait, hnil⟩ | ⟨pair, rest, hnext, hcons⟩
      · rw [hwait, hnil]
        rfl
      · rw [hnext, hcons, List.take_succ_cons, ← ih rest]

end

section

variable (fromReader : Bytes → Except Text DataStreamHeader)

/-- The accepts of a `TunnelListener` all come to an end. -/
def TunnelListener.accepts (stream : Option Incoming) :
    Option (Except AcceptError (TunnelConnection × SocketAddr)) :=
  some (TunnelListener.accept fromReader stream)

theorem accept_ne_quicConnection (stream : Incoming) :
    TunnelListener.accept fromReader (some stream) ≠ .error .quicConnection := by
  intro h
  rw [TunnelListener.accept] at h
  by_cases hlate : stream.late = true
  · rw [if_pos hlate] at h
    cases h
  · rw [if_neg hlate] at h
    split at h
    · cases h
    · cases h

theorem endsWithTunnel : EndsWithTunnel (TunnelListener.accepts fromReader) where
  gone := rfl
  there stream h := accept_ne_quicConnection fromReader stream (Option.some.inj h)

theorem endsWithTunnel_tls {T : Type*} (acceptor : TunnelConnection → TlsHandshake T) :
    EndsWithTunnel (TlsTunnelListener.accept fromReader acceptor) where
  gone := rfl
  there := by
    intro stream h
    unfold TlsTunnelListener.accept at h
    cases hinner : TunnelListener.accept fromReader (some stream) with
    | error e =>
        rw [hinner] at h
        cases h
        exact accept_ne_quicConnection fromReader stream hinner
    | ok pair =>
        rw [hinner] at h
        dsimp only at h
        split at h <;> cases h

theorem connections_accepts (streams : List Incoming) :
    connections (TunnelListener.accepts fromReader) streams =
      streams.filterMap fun stream => (TunnelListener.accept fromReader (some stream)).toOption := by
  have hall : (streams.takeWhile fun stream => (TunnelListener.accepts fromReader (some stream)).isSome) =
      streams := List.takeWhile_eq_self_iff.mpr fun _ _ => rfl
  rw [connections, hall]
  rfl

/-- TLS ends the list at the first handshake that does not end, takes away those that fail, and changes none of
the addresses. -/
theorem connections_tls {T : Type*} (acceptor : TunnelConnection → TlsHandshake T) (streams : List Incoming) :
    connections (TlsTunnelListener.accept fromReader acceptor) streams =
      ((connections (TunnelListener.accepts fromReader) streams).takeWhile fun pair =>
        (acceptor pair.1).ends).filterMap fun pair => (acceptor pair.1).toOption.map fun tls => (tls, pair.2) := by
  rw [connections_accepts, List.takeWhile_filterMap, List.filterMap_filterMap, connections]
  have haccept : ∀ stream, (TlsTunnelListener.accept fromReader acceptor (some stream)).isSome =
        ((TunnelListener.accept fromReader (some stream)).toOption.all fun pair => (acceptor pair.1).ends) ∧
      (TlsTunnelListener.accept fromReader acceptor (some stream)).bind Except.toOption =
        (TunnelListener.accept fromReader (some stream)).toOption.bind fun pair =>
          (acceptor pair.1).toOption.map fun tls => (tls, pair.2) := by
    intro stream
    unfold TlsTunnelListener.accept
    cases TunnelListener.accept fromReader (some stream) with
    | error e => exact ⟨rfl, rfl⟩
    | ok pair =>
        dsimp only
        cases hacc : acceptor pair.1 <;>
          simp [Except.toOption, TlsHandshake.toOption, TlsHandshake.ends, hacc]
  simp only [haccept]

end

/-! ### The streams of a server -/

variable (cbor : Cbor DataStreamHeader)

/-- The header that `open_tunnel_stream` makes, and the bytes it and `pipe_bytes` send: none if the header is
too long for a frame. -/
def streamBytes (header : DataStreamHeader) (piped : Bytes) : Bytes :=
  match FrameCodec.encode cbor.intoWriter header [] with
  | (.ok (), frame) => frame ++ piped
  | (.error _, _) => []

/-- A stream that a server has opened for a public peer, with as much of what is sent on it as reaches the
client, and whether the time for its header runs out first. -/
structure Opened where
  sni : Text
  peer : SocketAddr
  mode : TlsMode
  piped : Bytes
  recv : List Bytes
  late : Bool
  delivered : recv.flatten <+: streamBytes cbor ⟨sni, peer.toText, mode⟩ piped

namespace Opened

variable {cbor} (o : Opened cbor)

def header : DataStreamHeader := ⟨o.sni, o.peer.toText, o.mode⟩

def incoming : Incoming := ⟨o.recv, o.late⟩

/-- The header comes whole and in time. -/
def prompt : Bool :=
  !o.late && (FrameCodec.encode cbor.intoWriter o.header []).1.toBool &&
    decide ((cbor.encoding o.header).length ≤ o.recv.flatten.length)

/-- A connection of a listener is this stream: it says where it comes from, and is left at the first byte behind
the header. -/
structure AcceptedAs (pair : TunnelConnection × SocketAddr) : Prop where
  header : pair.1.header = o.header
  rest : o.recv.flatten = cbor.encoding o.header ++ pair.1.recv.flatten
  piped : pair.1.recv.flatten <+: o.piped
  peer : pair.2 = o.peer

/-- A header that is too long leaves the stream empty, and any other one is the start of it. -/
theorem sent : (∃ e, (FrameCodec.encode cbor.intoWriter o.header []).1 = .error e ∧ o.recv.flatten = []) ∨
    ∃ payload, cbor.intoWriter o.header = .ok payload ∧ payload.length ≤ maxFrameSize ∧
      FrameCodec.encode cbor.intoWriter o.header [] = (.ok (), frame payload) ∧
      o.recv.flatten <+: frame payload ++ o.piped := by
  have hdelivered : o.recv.flatten <+: streamBytes cbor o.header o.piped := o.delivered
  rw [streamBytes] at hdelivered
  cases henc : FrameCodec.encode cbor.intoWriter o.header [] with
  | mk result bytes =>
      rw [henc] at hdelivered
      cases result with
      | error e => exact .inl ⟨e, rfl, List.prefix_nil.mp hdelivered⟩
      | ok _ =>
          obtain ⟨payload, hp, hmax, rfl⟩ := payload_of_encode henc
          exact .inr ⟨payload, hp, hmax, rfl, hdelivered⟩

theorem accept_incomplete (hlate : o.late = false) (h : classify o.recv.flatten = .incomplete) :
    TunnelListener.accept cbor.fromReader (some o.incoming) = .error (.protocol .io) := by
  have hread := readFrame_incomplete cbor.fromReader h
  rw [TunnelListener.accept, incoming, if_neg (by simp [hlate])]
  cases hres : readFrame cbor.fromReader o.recv with
  | mk result left =>
      rw [hres] at hread
      obtain rfl : result = .error .io := hread
      rfl

/-- What a listener makes of a stream. -/
theorem accept_spec :
    (o.prompt = true ∧
      ∃ pair, TunnelListener.accept cbor.fromReader (some o.incoming) = .ok pair ∧ o.AcceptedAs pair) ∨
    (o.prompt = false ∧ ∃ e, TunnelListener.accept cbor.fromReader (some o.incoming) = .error e) := by
  cases hlate : o.late with
  | true =>
      refine .inr ⟨by simp [prompt, hlate], .responseTimeout, ?_⟩
      rw [TunnelListener.accept, incoming, if_pos hlate]
  | false =>
      rcases o.sent with ⟨e, herr, hnil⟩ | ⟨payload, hp, hmax, henc, hprefix⟩
      · refine .inr ⟨by simp [prompt, hlate, herr, Except.toBool], _, o.accept_incomplete hlate ?_⟩
        rw [hnil]
        decide
      have hencoding : cbor.encoding o.header = frame payload := congrArg Prod.snd henc
      have hprompt : o.prompt = decide ((frame payload).length ≤ o.recv.flatten.length) := by
        simp [prompt, hlate, henc, hencoding, Except.toBool]
      rcases Nat.lt_or_ge o.recv.flatten.length (frame payload).length with hshort | hwhole
      · -- part of the header
        refine .inr ⟨by rw [hprompt, decide_eq_false (Nat.not_le.mpr hshort)], _, o.accept_incomplete hlate ?_⟩
        have hpart := List.prefix_of_prefix_length_le hprefix (List.prefix_append _ _) hshort.le
        exact classify_of_isPrefix hmax hpart fun h => absurd (congrArg List.length h) hshort.ne
      · obtain ⟨rest, hrest⟩ := List.prefix_of_prefix_length_le (List.prefix_append _ _) hprefix hwhole
        have hclass : classify o.recv.flatten = .frame payload rest := by
          rw [← hrest]
          exact classify_frame_append hmax rest
        obtain ⟨left, hread, hleft⟩ := readFrame_frame cbor.fromReader hclass
        rw [cbor.fromReader_intoWriter hp] at hread
        refine .inl ⟨by rw [hprompt, decide_eq_true hwhole], (⟨left, o.header⟩, o.peer), ?_, ?_⟩
        · have hparse : SocketAddr.parse o.header.peerAddr = some o.peer := SocketAddr.parse_toText o.peer
          rw [TunnelListener.accept, incoming, if_neg (by simp [hlate]), hread]
          change Except.ok (_, (SocketAddr.parse o.header.peerAddr).getD unspecified) = _
          rw [hparse]
          rfl
        · refine ⟨rfl, ?_, ?_, rfl⟩
          · rw [hencoding, hleft, hrest]
          · rw [hleft]
            rw [← hrest] at hprefix
            exact (List.prefix_append_right_inj _).mp hprefix

/-- The connections of a listener are the prompt streams, in their order. -/
theorem connections_spec (opened : List (Opened cbor)) :
    List.Forall₂ AcceptedAs (opened.filter prompt)
      (connections (TunnelListener.accepts cbor.fromReader) (opened.map incoming)) := by
  rw [connections_accepts]
  induction opened with
  | nil => exact .nil
  | cons o opened ih =>
      rw [List.map_cons, List.filterMap_cons]
      rcases o.accept_spec with ⟨hprompt, pair, haccept, hpair⟩ | ⟨hprompt, e, haccept⟩
      · rw [List.filter_cons_of_pos hprompt, haccept]
        exact .cons hpair ih
      · rw [List.filter_cons_of_neg (by simp [hprompt]), haccept]
        exact ih

end Opened

/-- **A listener gives what the server opened.**  Whatever streams a server opens on a tunnel, for whatever
public peers, in whatever order `accept_bi` gives them, and whatever part of each arrives in whatever chunks,
there is one list of connections, the streams whose headers came whole and in time, in that order: each has
the host, the mode and the address of its public peer and goes on with the first byte behind the header.  The
calls of `accept` of a `TunnelListener` give this list.  Those of a `TlsTunnelListener` give it up to the first
connection whose handshake does not end, without those whose handshake fails. -/
theorem listener_accepts (cbor : Cbor DataStreamHeader) (opened : List (Opened cbor)) :
    ∃ conns : List (TunnelConnection × SocketAddr),
      List.Forall₂ Opened.AcceptedAs (opened.filter Opened.prompt) conns ∧
      (∀ n, axumServe (TunnelListener.accepts cbor.fromReader) n (opened.map Opened.incoming) =
        conns.take n) ∧
      ∀ {T : Type} (acceptor : TunnelConnection → TlsHandshake T) n,
        axumServe (TlsTunnelListener.accept cbor.fromReader acceptor) n (opened.map Opened.incoming) =
          ((conns.takeWhile fun pair => (acceptor pair.1).ends).filterMap fun pair =>
            (acceptor pair.1).toOption.map fun tls => (tls, pair.2)).take n := by
  refine ⟨_, Opened.connections_spec opened, fun n => ?_, fun acceptor n => ?_⟩
  · exact axumServe_eq (endsWithTunnel _) n _
  · rw [axumServe_eq (endsWithTunnel_tls _ acceptor), connections_tls]

end Tuyau
