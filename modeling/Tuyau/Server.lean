import Tuyau.Control
import Tuyau.Handler
import Tuyau.Ownership

/-! # The server: handlers, routing table and registry together

The state of a server holds the routing table, the registry of tunnels, the phase of the handler
of every connection accepted so far, and what happened on the wire: the Hellos the peers sent, the
responses the handlers wrote, the connections lost from the peer's side, and every `close` the
server called, with its cause.  An `Action` is one atomic step of one party: a peer, the handler of
one connection, the operator (`kick`, `setTerminatedDomains`, `cancel`) or a public lookup.  A run of
`step` is any interleaving of them.

The backend is a relation `backend token answer`: in static mode it holds of the one answer the
configuration gives, in dynamic mode nothing is assumed of it.

`step_phase` says what a step can do to the handler of one connection, and `tracked_run` ties the
phase of every handler to the events it met in the run, so that results can be stated about what
happened to a connection rather than about phases. -/

namespace Tuyau

open AsciiText RoutingTable

/-- The registry entry of a connection admitted with a grant. -/
def Connection.info (c : Connection) (g : ClientGrant) : TunnelInfo :=
  ⟨g.clientName, c.remoteAddress, g.hosts⟩

structure Server where
  routes : RoutingTable
  control : Control
  handlers : AssocMap Connection Phase
  hellos : List (Connection × Hello)
  responses : List (Connection × HelloResponse)
  peerClosed : List Connection
  closes : List (Connection × CloseCause)
  cancelled : Bool

/-- One atomic step of one party. -/
inductive Action where
  | accept (c : Connection)
  | peerHello (c : Connection) (hello : Hello)
  | peerClose (c : Connection)
  | handler (c : Connection) (ev : Event)
  | kick (clientName : Text)
  | setTerminatedDomains (domains : List Text)
  | lookup (host : Text)
  | cancel
deriving DecidableEq

namespace Server

/-- A server that has just started. -/
def start (cfg : ServerConfig) : Server where
  routes := fromConfig cfg.hostnames cfg.upstreams
  control := Control.new
  handlers := ∅
  hellos := []
  responses := []
  peerClosed := []
  closes := []
  cancelled := false

/-- The connection has a `close_reason`. -/
def closed (s : Server) (c : Connection) : Bool :=
  decide (c ∈ s.peerClosed) || decide (c ∈ s.closes.map Prod.fst)

/-- Move the handler of a connection to a phase. -/
def advance (s : Server) (c : Connection) (ph : Phase) : Server :=
  { s with handlers := AList.insert c ph s.handlers }

/-- Perform the effect of a handler. -/
def perform (s : Server) (c : Connection) : Effect → Server
  | .none => s
  | .respond response => { s with responses := s.responses ++ [(c, response)] }
  | .install g =>
      let done := s.routes.install g.hostnames g.clientName g.balance c
      { s with routes := done.2, closes := s.closes ++ done.1.map fun prev => (prev, .replacedBy c) }
  | .register g => { s with control := s.control.register c.stableId (c.info g) }
  | .removeConn => { s with routes := s.routes.removeConn c.stableId }
  | .unregister => { s with control := s.control.unregister c.stableId }
  | .close cause => { s with closes := s.closes ++ [(c, cause)] }

/-- Revoke a client: the number of connections closed, and the server left. -/
def kick (s : Server) (clientName : Text) : ℕ × Server :=
  let kicked := s.routes.kick clientName
  (kicked.1.length,
    { s with
      routes := kicked.2
      closes := s.closes ++ kicked.1.map fun c => (c, .revoked clientName) })

/-- Replace the set of hosts the server terminates TLS for. -/
def setTerminatedDomains (s : Server) (domains : List Text) : Server :=
  { s with routes := s.routes.setTerminated domains }

variable (backend : Token → Option ClientGrant → Bool)

/-- Whether a handler in phase `ph` can find `ev`. -/
def occurs (s : Server) (c : Connection) (ph : Phase) : Event → Bool
  | .hello hello => decide ((c, hello) ∈ s.hellos)
  | .admitted answer =>
      match ph with
      | .admitting hello => backend hello.token answer
      | _ => false
  | .closeCheck closed => closed == s.closed c
  | .cancelled => s.cancelled
  | .closed => s.closed c
  | _ => true

/-- A connection can be accepted: it is new, and no running handler has its stable id. -/
def Acceptable (s : Server) (c : Connection) : Prop :=
  s.handlers.lookup c = none ∧ ∀ e ∈ s.handlers.entries, e.2 ≠ .done → e.1.stableId ≠ c.stableId

instance (s : Server) (c : Connection) : Decidable (s.Acceptable c) :=
  inferInstanceAs (Decidable (_ ∧ ∀ e ∈ s.handlers.entries, e.2 ≠ .done → e.1.stableId ≠ c.stableId))

def step (s : Server) : Action → Option Server
  | .accept c => if s.Acceptable c then some (s.advance c .acceptBi) else none
  | .peerHello c hello => some { s with hellos := s.hellos ++ [(c, hello)] }
  | .peerClose c => some { s with peerClosed := c :: s.peerClosed }
  | .handler c ev =>
      (s.handlers.lookup c).bind fun ph =>
        if s.occurs backend c ph ev then
          (transition ph ev).map fun (ph', eff) => (s.advance c ph').perform c eff
        else none
  | .kick clientName => some (s.kick clientName).2
  | .setTerminatedDomains domains => some (s.setTerminatedDomains domains)
  | .lookup host => some { s with routes := (s.routes.lookup (fun c => !s.closed c) host).2 }
  | .cancel => some { s with cancelled := true }

variable {backend} {s s' : Server} {c d : Connection}

/-- What a step of a handler is. -/
theorem step_handler {ev : Event} (h : step backend s (.handler c ev) = some s') :
    ∃ ph ph' eff, s.handlers.lookup c = some ph ∧ s.occurs backend c ph ev = true ∧
      transition ph ev = some (ph', eff) ∧ s' = (s.advance c ph').perform c eff := by
  simp only [step, Option.bind_eq_some_iff] at h
  obtain ⟨ph, hph, h⟩ := h
  split_ifs at h with hocc
  obtain ⟨⟨ph', eff⟩, htr, rfl⟩ := Option.map_eq_some_iff.mp h
  exact ⟨ph, ph', eff, hph, hocc, htr, rfl⟩

theorem step_accept (h : step backend s (.accept c) = some s') :
    s.Acceptable c ∧ s' = s.advance c .acceptBi := by
  simp only [step] at h
  split_ifs at h with hacc
  exact ⟨hacc, (Option.some.inj h).symm⟩

@[simp] theorem perform_handlers {eff : Effect} : (s.perform c eff).handlers = s.handlers := by
  cases eff <;> rfl

@[simp] theorem lookup_advance {ph : Phase} :
    (s.advance c ph).handlers.lookup d = if d = c then some ph else s.handlers.lookup d :=
  AssocMap.lookup_insert_eq_ite ..

/-- A tunnel that comes up undisturbed, until its routes are installed. -/
def comeUp (c : Connection) (hello : Hello) (g : ClientGrant) : List Action :=
  [.accept c, .handler c .streamOpened, .peerHello c hello, .handler c (.hello hello),
    .handler c (.admitted (some g)), .handler c (.closeCheck false), .handler c .install]

/-- The rest of the way to a registered tunnel. -/
def welcome (c : Connection) : List Action := [.handler c .welcomeSent, .handler c .register]

/-- The end of a tunnel whose connection is closed. -/
def tearDown (c : Connection) : List Action :=
  [.handler c .closed, .handler c .removeConn, .handler c .unregister]

/-! ### Handlers by themselves -/

/-- The handler of `c` has started and not finished. -/
def Running (s : Server) (c : Connection) : Prop := ∃ ph, s.handlers.lookup c = some ph ∧ ph ≠ .done

/-- The events the handler of `c` met in a run. -/
def eventsOf (c : Connection) (as : List Action) : List Event :=
  as.filterMap fun
    | .handler c' ev => if c' = c then some ev else none
    | _ => none

theorem eventsOf_concat_handler (c : Connection) (as : List Action) (ev : Event) :
    eventsOf c (as ++ [.handler c ev]) = eventsOf c as ++ [ev] := by
  simp [eventsOf]

theorem eventsOf_concat_other {a : Action} (as : List Action) (ha : ∀ ev, a ≠ .handler c ev) :
    eventsOf c (as ++ [a]) = eventsOf c as := by
  cases a with
  | handler c' ev =>
      have hne : c' ≠ c := by
        rintro rfl
        exact ha ev rfl
      simp [eventsOf, hne]
  | _ => simp [eventsOf]

theorem mem_eventsOf {as : List Action} {ev : Event} : ev ∈ eventsOf c as ↔ .handler c ev ∈ as := by
  simp only [eventsOf, List.mem_filterMap]
  constructor
  · rintro ⟨a, ha, hev⟩
    cases a with
    | handler c' ev' =>
        dsimp only at hev
        split_ifs at hev with hc
        obtain rfl := Option.some.inj hev
        exact hc ▸ ha
    | _ => cases hev
  · intro ha
    exact ⟨_, ha, by simp⟩

/-- Only its own steps move a handler. -/
theorem step_frame {a : Action} (h : step backend s a = some s') (ha : ∀ ev, a ≠ .handler c ev)
    (hc : a ≠ .accept c) : s'.handlers.lookup c = s.handlers.lookup c := by
  cases a with
  | accept d =>
      obtain ⟨-, rfl⟩ := step_accept h
      rw [lookup_advance, if_neg]
      rintro rfl
      exact hc rfl
  | handler d ev =>
      obtain ⟨ph, ph', eff, -, -, -, rfl⟩ := step_handler h
      rw [perform_handlers, lookup_advance, if_neg]
      rintro rfl
      exact ha ev rfl
  | _ =>
      obtain rfl := Option.some.inj h
      rfl

/-- What a step can do to the handler of one connection. -/
theorem step_phase {a : Action} (h : step backend s a = some s') (c : Connection) :
    (∃ ev ph ph' eff, a = .handler c ev ∧ s.handlers.lookup c = some ph ∧
      s.occurs backend c ph ev = true ∧ transition ph ev = some (ph', eff) ∧
      s' = (s.advance c ph').perform c eff ∧ s'.handlers.lookup c = some ph') ∨
    (a = .accept c ∧ s.handlers.lookup c = none ∧ s'.handlers.lookup c = some .acceptBi) ∨
    (∀ ev, a ≠ .handler c ev) ∧ a ≠ .accept c ∧ s'.handlers.lookup c = s.handlers.lookup c := by
  by_cases ha : ∃ ev, a = .handler c ev
  · obtain ⟨ev, rfl⟩ := ha
    obtain ⟨ph, ph', eff, hph, hocc, htr, rfl⟩ := step_handler h
    exact .inl ⟨ev, ph, ph', eff, rfl, hph, hocc, htr, rfl, by simp⟩
  · have ha' : ∀ ev, a ≠ .handler c ev := fun ev hev => ha ⟨ev, hev⟩
    by_cases hacc : a = .accept c
    · subst hacc
      obtain ⟨hfree, rfl⟩ := step_accept h
      exact .inr (.inl ⟨rfl, hfree.1, by simp⟩)
    · exact .inr (.inr ⟨ha', hacc, step_frame h ha' hacc⟩)

/-- The phase of every handler fits the events it met. -/
def Tracked (as : List Action) (s : Server) : Prop :=
  ∀ c, s.handlers.lookup c = none ∧ eventsOf c as = [] ∨
    ∃ ph, s.handlers.lookup c = some ph ∧ Passed (eventsOf c as) ph

theorem tracked_step {as : List Action} {a : Action} (hs : Tracked as s)
    (h : step backend s a = some s') : Tracked (as ++ [a]) s' := by
  intro c
  rcases step_phase h c with ⟨ev, ph, ph', eff, rfl, hph, -, htr, -, hph'⟩ | ⟨rfl, hfree, hph'⟩ |
    ⟨ha, -, hsame⟩
  · rcases hs c with ⟨hnone, -⟩ | ⟨ph₀, hph₀, hp⟩
    · rw [hph] at hnone
      cases hnone
    · rw [hph] at hph₀
      obtain rfl := Option.some.inj hph₀
      refine .inr ⟨ph', hph', ?_⟩
      rw [eventsOf_concat_handler]
      exact passed_step hp htr
  · rw [eventsOf_concat_other as (by simp)]
    rcases hs c with ⟨-, hev⟩ | ⟨ph, hph, -⟩
    · exact .inr ⟨.acceptBi, hph', hev ▸ passed_start⟩
    · rw [hfree] at hph
      cases hph
  · rw [eventsOf_concat_other as ha, hsame]
    exact hs c

theorem tracked_run {cfg : ServerConfig} {as : List Action}
    (hrun : Runs.run (step backend) as (start cfg) = some s) : Tracked as s :=
  Runs.run_history (P := Tracked) (fun _ => .inl ⟨rfl, rfl⟩)
    (fun _ _ _ _ _ hs h => tracked_step hs h) hrun

theorem Tracked.passed {as : List Action} {ph : Phase} (hs : Tracked as s)
    (hph : s.handlers.lookup c = some ph) : Passed (eventsOf c as) ph := by
  rcases hs c with ⟨hnone, -⟩ | ⟨ph₀, hph₀, hp⟩
  · rw [hph] at hnone
    cases hnone
  · rw [hph] at hph₀
    exact Option.some.inj hph₀ ▸ hp

/-- A handler that met an event has started. -/
theorem Tracked.exists_phase {as : List Action} {ev : Event} (hs : Tracked as s)
    (hev : .handler c ev ∈ as) :
    ∃ ph, s.handlers.lookup c = some ph ∧ Passed (eventsOf c as) ph := by
  rcases hs c with ⟨-, hnil⟩ | h
  · rw [← mem_eventsOf, hnil] at hev
    cases hev
  · exact h

/-- The grant a handler works with is the backend's answer to the token it was shown. -/
theorem granted_run {cfg : ServerConfig} {as : List Action}
    (hrun : Runs.run (step backend) as (start cfg) = some s) :
    ∀ c ph g, s.handlers.lookup c = some ph → ph.grant = some g →
      ∃ hello, .handler c (.hello hello) ∈ as ∧ backend hello.token (some g) = true := by
  refine Runs.run_history (P := fun as s => ∀ c ph g, s.handlers.lookup c = some ph →
    ph.grant = some g → ∃ hello, .handler c (.hello hello) ∈ as ∧ backend hello.token (some g) = true)
    (fun c ph g hph => by cases hph) ?_ hrun
  intro as s a s' hrun hs h c ph' g hph' hg
  have hold : ∀ ph, s.handlers.lookup c = some ph → ph.grant = some g →
      ∃ hello, .handler c (.hello hello) ∈ as ++ [a] ∧ backend hello.token (some g) = true := by
    intro ph hph hg
    obtain ⟨hello, hin, hb⟩ := hs c ph g hph hg
    exact ⟨hello, List.mem_append_left _ hin, hb⟩
  rcases step_phase h c with ⟨ev, ph, ph₁, eff, rfl, hph, hocc, htr, -, hph₁⟩ | ⟨-, -, hph₁⟩ |
    ⟨-, -, hsame⟩
  · rw [hph₁] at hph'
    obtain rfl := Option.some.inj hph'
    rcases (moves_of_transition htr).grant with rfl | ⟨hsame, -⟩ | ⟨g', rfl, hg', -⟩
    · cases hg
    · exact hold ph hph (hsame ▸ hg)
    · rw [hg'] at hg
      obtain rfl := Option.some.inj hg
      simp only [occurs] at hocc
      split at hocc
      · next hello =>
          have hheard := ((tracked_run hrun).passed hph).heard hello rfl
          exact ⟨hello, List.mem_append_left _ (mem_eventsOf.mp hheard), hocc⟩
      · cases hocc
  · rw [hph₁] at hph'
    obtain rfl := Option.some.inj hph'
    cases hg
  · rw [hsame] at hph'
    exact hold ph' hph' hg

end Server

end Tuyau
