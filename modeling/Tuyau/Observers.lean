import Tuyau.Agreement
import Tuyau.Feeds

/-! # Those who watch the tunnels

`Control` changes its registry under a lock and sends the event after it has let go of the lock, so that the
events of two handlers may be sent in another order than their changes.  Here an event is in flight between
the two, and its handler waits for it to be sent.  A watcher subscribes, takes a snapshot with `tunnels`, and
receives what is sent from then on; the channel keeps `EVENT_CAPACITY` events, and a watcher that is further
behind is told how many it missed.

`Told` says what every handler has announced in each of its phases.  `events_account` is about all events of a
run: none is lost or sent twice, each tunnel comes up before it goes down, and the events balance with the
registry.  `watcher_agrees` is about one watcher: if it missed nothing and nothing is in flight, its view
is the registry, although events may be sent out of order and twice reflect what the snapshot had. -/

namespace Tuyau

open AsciiText

/-- `EVENT_CAPACITY`. -/
def eventCapacity : ℕ := 256

/-- Who is told about: a client and where it connects from. -/
def TunnelInfo.key (info : TunnelInfo) : Text × SocketAddr := (info.clientName, info.peer)

def ControlEvent.key : ControlEvent → Text × SocketAddr
  | tunnelUp clientName peer _ => (clientName, peer)
  | tunnelDown clientName peer => (clientName, peer)

def ControlEvent.isUp : ControlEvent → Bool
  | tunnelUp .. => true
  | tunnelDown .. => false

namespace ControlEvent

variable {clientName : Text} {peer : SocketAddr} {hostnames : List Text} {info : TunnelInfo}

@[simp] theorem isUp_tunnelUp : (tunnelUp clientName peer hostnames).isUp = true := rfl

@[simp] theorem isUp_tunnelDown : (tunnelDown clientName peer).isUp = false := rfl

@[simp] theorem key_tunnelUp : (tunnelUp info.clientName info.peer hostnames).key = info.key := rfl

@[simp] theorem key_tunnelDown : (tunnelDown info.clientName info.peer).key = info.key := rfl

end ControlEvent

/-- An event, with the connection it comes from. -/
structure Announcement where
  conn : Connection
  info : TunnelInfo
  up : Bool
deriving DecidableEq

def Announcement.event (a : Announcement) : ControlEvent :=
  if a.up then .tunnelUp a.info.clientName a.info.peer a.info.hostnames
  else .tunnelDown a.info.clientName a.info.peer

@[simp] theorem Announcement.isUp_event (a : Announcement) : a.event.isUp = a.up := by
  unfold event
  split_ifs with h <;> simp [h]

@[simp] theorem Announcement.key_event (a : Announcement) : a.event.key = a.info.key := by
  unfold event
  split_ifs <;> rfl

/-- The clients and addresses of some tunnels. -/
def keys (infos : List TunnelInfo) : Finset (Text × SocketAddr) := (infos.map TunnelInfo.key).toFinset

/-- A subscriber: the next event it gets, how many it missed, those it got, and its snapshot. -/
structure Watcher where
  next : ℕ
  missed : ℕ
  received : List ControlEvent
  snapshot : Option (List TunnelInfo)

/-- The tunnels a subscriber takes to be up: those of its snapshot, as the events it got since then changed them. -/
def Watcher.view (w : Watcher) : Finset (Text × SocketAddr) :=
  w.received.foldl (fun view e => if e.isUp then insert e.key view else view.erase e.key)
    (keys (w.snapshot.getD []))

/-- A server whose events are sent one by one. -/
structure Observed where
  server : Server
  inFlight : AssocMap Connection Announcement
  sent : List Announcement
  watcher : Option Watcher

namespace Observed

def start (cfg : ServerConfig) : Observed := ⟨Server.start cfg, ∅, [], none⟩

inductive Step where
  | server (a : Action)
  | send (c : Connection)
  | subscribe
  | snapshot
  | receive

/-- The event that `register` and `unregister` send. -/
def announcement (s : Server) (c : Connection) : Effect → Option Announcement
  | .register g => some ⟨c, c.info g, true⟩
  | .unregister => (s.control.tunnels.lookup c.stableId).map fun info => ⟨c, info, false⟩
  | _ => none

/-- The event that the handler of `c` sends next when it meets `ev`. -/
def announces (s : Server) (c : Connection) (ev : Event) : Option Announcement :=
  (s.handlers.lookup c).bind fun ph => (transition ph ev).bind fun r => announcement s c r.2

/-- `tunnels`. -/
def tunnels (s : Server) : List TunnelInfo := AssocMap.values s.control.tunnels

/-- `recv`: what was pushed out of the channel is missed, and the receiver is told. -/
def receive (sent : List Announcement) (w : Watcher) : Option Watcher :=
  let oldest := sent.length - eventCapacity
  if w.next < oldest then some { w with next := oldest, missed := w.missed + (oldest - w.next) }
  else
    (sent[w.next]?).map fun a => { w with next := w.next + 1, received := w.received ++ [a.event] }

variable (backend : Token → Option ClientGrant → Bool)

def step (s : Observed) : Step → Option Observed
  | .server (.handler c ev) =>
      if s.inFlight.lookup c = none then
        (s.server.step backend (.handler c ev)).map fun server =>
          { s with
            server
            inFlight := (announces s.server c ev).elim s.inFlight fun a => AList.insert c a s.inFlight }
      else none
  | .server a => (s.server.step backend a).map fun server => { s with server }
  | .send c =>
      (s.inFlight.lookup c).map fun a =>
        { s with inFlight := AList.erase c s.inFlight, sent := s.sent ++ [a] }
  | .subscribe => some { s with watcher := some ⟨s.sent.length, 0, [], none⟩ }
  | .snapshot => s.watcher.map fun w => { s with watcher := some { w with snapshot := some (tunnels s.server) } }
  | .receive => s.watcher.bind fun w => (receive s.sent w).map fun w => { s with watcher := some w }

/-! ### What a handler has announced -/

/-- The events of one connection, those in flight included. -/
def told (s : Observed) (c : Connection) : List Announcement :=
  s.sent.filter (fun a => a.conn = c) ++ (s.inFlight.lookup c).toList

/-- The events that fit the phase of a handler. -/
def Fits (c : Connection) (events : List Announcement) (ph : Phase) : Prop :=
  match ph.registered with
  | some g => events = [⟨c, c.info g, true⟩]
  | none => events = [] ∨ ph = .done ∧ ∃ g, events = [⟨c, c.info g, true⟩, ⟨c, c.info g, false⟩]

/-- Every handler has announced what it did. -/
structure Told (s : Observed) : Prop where
  own : ∀ c a, s.inFlight.lookup c = some a → a.conn = c
  unheard : ∀ c, s.server.handlers.lookup c = none → s.told c = []
  fits : ∀ c ph, s.server.handlers.lookup c = some ph → Fits c (s.told c) ph

variable {backend} {s s' : Observed} {c d : Connection}

/-- What a step of a handler is. -/
theorem step_handler {ev : Event} (h : step backend s (.server (.handler c ev)) = some s') :
    s.inFlight.lookup c = none ∧ ∃ ph ph' eff, s.server.handlers.lookup c = some ph ∧
      transition ph ev = some (ph', eff) ∧ s.server.step backend (.handler c ev) = some s'.server ∧
      s'.server = (s.server.advance c ph').perform c eff ∧
      s' = { s with
        server := s'.server
        inFlight := (announcement s.server c eff).elim s.inFlight fun a => AList.insert c a s.inFlight } := by
  obtain ⟨hfree, h⟩ := Option.ite_none_right_eq_some.mp h
  obtain ⟨server, hstep, rfl⟩ := Option.map_eq_some_iff.mp h
  obtain ⟨ph, ph', eff, hph, -, htr, hserver⟩ := Server.step_handler hstep
  refine ⟨hfree, ph, ph', eff, hph, htr, hstep, hserver, ?_⟩
  simp [announces, hph, htr]

theorem step_server {a : Action} (ha : ∀ c ev, a ≠ .handler c ev)
    (h : step backend s (.server a) = some s') :
    s.server.step backend a = some s'.server ∧ s' = { s with server := s'.server } := by
  cases a with
  | handler c ev => exact absurd rfl (ha c ev)
  | _ =>
      rw [step] at h
      · obtain ⟨server, hstep, rfl⟩ := Option.map_eq_some_iff.mp h
        exact ⟨hstep, rfl⟩
      · simp

theorem step_send (h : step backend s (.send c) = some s') :
    ∃ a, s.inFlight.lookup c = some a ∧
      s' = { s with inFlight := AList.erase c s.inFlight, sent := s.sent ++ [a] } := by
  obtain ⟨a, ha, rfl⟩ := Option.map_eq_some_iff.mp h
  exact ⟨a, ha, rfl⟩

/-- The watcher only watches. -/
theorem step_watcher {t : Step} (ht : t = .subscribe ∨ t = .snapshot ∨ t = .receive)
    (h : step backend s t = some s') : ∃ w, s' = { s with watcher := w } := by
  rcases ht with rfl | rfl | rfl
  · cases h
    exact ⟨_, rfl⟩
  · obtain ⟨w, -, rfl⟩ := Option.map_eq_some_iff.mp h
    exact ⟨_, rfl⟩
  · obtain ⟨w, -, h⟩ := Option.bind_eq_some_iff.mp h
    obtain ⟨w, -, rfl⟩ := Option.map_eq_some_iff.mp h
    exact ⟨_, rfl⟩

theorem registered_of_transition {ph ph' : Phase} {ev : Event} {eff : Effect}
    (h : transition ph ev = some (ph', eff)) (hreg : ∀ g, eff ≠ .register g) (hun : eff ≠ .unregister) :
    ph'.registered = ph.registered := by
  have heff := transition_effect h
  cases eff with
  | register g => exact absurd rfl (hreg g)
  | unregister => exact absurd rfl hun
  | install g =>
      obtain ⟨rfl, rfl, -⟩ := heff
      rfl
  | removeConn =>
      obtain ⟨-, g, ⟨rfl, rfl⟩ | ⟨rfl, rfl⟩⟩ := heff <;> rfl
  | none => exact heff.2.1
  | respond response => exact heff.2.1
  | close cause => exact heff.2.1

/-- A handler announces what it does to the registry. -/
theorem fits_transition {server : Server} {events : List Announcement} {ph ph' : Phase} {ev : Event}
    {eff : Effect} (h : transition ph ev = some (ph', eff)) (hf : Fits c events ph)
    (hlisted : ∀ g, ph.registered = some g → server.control.tunnels.lookup c.stableId = some (c.info g)) :
    Fits c (events ++ (announcement server c eff).toList) ph' := by
  have hkept : (∀ g, eff ≠ .register g) → eff ≠ .unregister → announcement server c eff = none →
      Fits c (events ++ (announcement server c eff).toList) ph' := by
    intro hreg hun hnone
    rw [hnone, Option.toList_none, List.append_nil, Fits, registered_of_transition h hreg hun]
    rw [Fits] at hf
    cases hr : ph.registered with
    | some g =>
        rw [hr] at hf
        exact hf
    | none =>
        rw [hr] at hf
        -- a handler that is done takes no step
        refine .inl (hf.resolve_right ?_)
        rintro ⟨rfl, -⟩
        cases h
  have heff := transition_effect h
  cases eff with
  | register g =>
      obtain ⟨rfl, rfl⟩ := heff
      have hnil : events = [] := hf.resolve_right (by simp)
      rw [hnil]
      rfl
  | unregister =>
      obtain ⟨g, rfl, rfl⟩ := heff
      have hup : events = [⟨c, c.info g, true⟩] := hf
      rw [announcement, hlisted g rfl, hup]
      exact .inr ⟨rfl, g, rfl⟩
  | _ => exact hkept (by simp) (by simp) rfl

/-- Two tunnels come up before a watcher subscribes, and their events are sent in the other order after its
snapshot; then one goes down. -/
def overtaken : List Step :=
  let a : ClientGrant := ⟨['a'], .roundRobin, [(['x'], .passthrough)]⟩
  let b : ClientGrant := ⟨['b'], .roundRobin, [(['y'], .passthrough)]⟩
  let hello : Hello := ⟨Vector.replicate 32 0, []⟩
  (Server.comeUp (.nth 0) hello a ++ Server.welcome (.nth 0) ++ Server.comeUp (.nth 1) hello b ++
    Server.welcome (.nth 1)).map .server ++
  [.subscribe, .snapshot, .send (.nth 1), .send (.nth 0), .receive, .receive] ++
  (.peerClose (.nth 0) :: Server.tearDown (.nth 0)).map .server ++ [.send (.nth 0), .receive]

/-! ### The events of a run -/

theorem announcement_conn {server : Server} {eff : Effect} {a : Announcement}
    (h : announcement server c eff = some a) : a.conn = c := by
  cases eff with
  | register g =>
      cases h
      rfl
  | unregister =>
      obtain ⟨info, -, rfl⟩ := Option.map_eq_some_iff.mp h
      rfl
  | _ => cases h

theorem told_announced {server : Server} {a : Option Announcement} (hfree : s.inFlight.lookup c = none) :
    told { s with server, inFlight := a.elim s.inFlight fun a => AList.insert c a s.inFlight } d =
      s.told d ++ if d = c then a.toList else [] := by
  unfold told
  cases a with
  | none => simp
  | some a =>
      by_cases hdc : d = c
      · subst hdc
        simp [hfree]
      · simp [AList.lookup_insert_ne hdc, hdc]

theorem told_sent {a : Announcement} (ha : s.inFlight.lookup c = some a) (hown : a.conn = c) :
    told { s with inFlight := AList.erase c s.inFlight, sent := s.sent ++ [a] } d = s.told d := by
  unfold told
  by_cases hdc : d = c
  · subst hdc
    simp [ha, hown]
  · have hne : c ≠ d := fun h => hdc h.symm
    simp [AList.lookup_erase_ne hdc, hown, hne]

/-- An event in flight is of the connection that announces it. -/
theorem own_step {t : Step} (hown : ∀ c a, s.inFlight.lookup c = some a → a.conn = c)
    (h : step backend s t = some s') : ∀ c a, s'.inFlight.lookup c = some a → a.conn = c := by
  cases t with
  | server act =>
      by_cases hact : ∃ c ev, act = .handler c ev
      · obtain ⟨c, ev, rfl⟩ := hact
        obtain ⟨-, ph, ph', eff, -, -, -, -, hs'⟩ := step_handler h
        rw [hs']
        intro d a ha
        cases hann : announcement s.server c eff with
        | none =>
            rw [hann] at ha
            exact hown d a ha
        | some b =>
            rw [hann] at ha
            by_cases hdc : d = c
            · subst hdc
              rw [Option.elim_some, AList.lookup_insert] at ha
              exact Option.some.inj ha ▸ announcement_conn hann
            · rw [Option.elim_some, AList.lookup_insert_ne hdc] at ha
              exact hown d a ha
      · obtain ⟨-, hs'⟩ := step_server (fun c ev hev => hact ⟨c, ev, hev⟩) h
        rw [hs']
        exact hown
  | send c =>
      obtain ⟨b, -, rfl⟩ := step_send h
      intro d a ha
      by_cases hdc : d = c
      · subst hdc
        rw [AList.lookup_erase] at ha
        cases ha
      · rw [AList.lookup_erase_ne hdc] at ha
        exact hown d a ha
  | _ =>
      obtain ⟨w, rfl⟩ := step_watcher (by simp) h
      exact hown

/-- What a step does to one connection: its handler acts and announces it, or nothing is announced and the
handler stays as it is, unless it has just started. -/
theorem step_told {t : Step} (hown : ∀ c a, s.inFlight.lookup c = some a → a.conn = c)
    (h : step backend s t = some s') (c : Connection) :
    (∃ ev ph ph' eff, s.server.handlers.lookup c = some ph ∧ transition ph ev = some (ph', eff) ∧
      s'.server.handlers.lookup c = some ph' ∧
      s'.told c = s.told c ++ (announcement s.server c eff).toList) ∨
    s'.told c = s.told c ∧ (s'.server.handlers.lookup c = s.server.handlers.lookup c ∨
      s.server.handlers.lookup c = none ∧ s'.server.handlers.lookup c = some .acceptBi) := by
  cases t with
  | server act =>
      by_cases hact : ∃ d ev, act = .handler d ev
      · obtain ⟨d, ev, rfl⟩ := hact
        obtain ⟨hfree, ph, ph', eff, hph, htr, hstep, hserver, hs'⟩ := step_handler h
        have htold : s'.told c = s.told c ++ if c = d then (announcement s.server d eff).toList else [] := by
          rw [hs']
          exact told_announced hfree
        have hlookup : s'.server.handlers.lookup c = if c = d then some ph' else s.server.handlers.lookup c := by
          rw [hserver, Server.perform_handlers, Server.lookup_advance]
        by_cases hcd : c = d
        · subst hcd
          rw [if_pos rfl] at htold hlookup
          exact .inl ⟨ev, ph, ph', eff, hph, htr, hlookup, htold⟩
        · rw [if_neg hcd, List.append_nil] at htold
          rw [if_neg hcd] at hlookup
          exact .inr ⟨htold, .inl hlookup⟩
      · obtain ⟨hstep, hs'⟩ := step_server (fun d ev hev => hact ⟨d, ev, hev⟩) h
        have htold : s'.told c = s.told c := by
          rw [hs']
          rfl
        rcases Server.step_phase hstep c with ⟨ev, -, -, -, rfl, -⟩ | ⟨-, hnone, hsome⟩ | ⟨-, -, hsame⟩
        · exact absurd ⟨c, ev, rfl⟩ hact
        · exact .inr ⟨htold, .inr ⟨hnone, hsome⟩⟩
        · exact .inr ⟨htold, .inl hsame⟩
  | send d =>
      obtain ⟨a, ha, rfl⟩ := step_send h
      exact .inr ⟨told_sent ha (hown d a ha), .inl rfl⟩
  | _ =>
      obtain ⟨w, rfl⟩ := step_watcher (by simp) h
      exact .inr ⟨rfl, .inl rfl⟩

theorem told_step {t : Step} (hinv : s.server.Inv) (hs : Told s) (h : step backend s t = some s') : Told s' where
  own := own_step hs.own h
  unheard c hnone := by
    rcases step_told hs.own h c with ⟨ev, ph, ph', eff, -, -, hph', -⟩ | ⟨htold, hsame | ⟨-, hph'⟩⟩
    · rw [hnone] at hph'
      cases hph'
    · rw [htold]
      exact hs.unheard c (hsame ▸ hnone)
    · rw [hnone] at hph'
      cases hph'
  fits c ph₁ hph₁ := by
    rcases step_told hs.own h c with ⟨ev, ph, ph', eff, hph, htr, hph', htold⟩ | ⟨htold, hsame | ⟨hnone, hph'⟩⟩
    · rw [hph'] at hph₁
      obtain rfl := Option.some.inj hph₁
      rw [htold]
      refine fits_transition htr (hs.fits c ph hph) fun g hg => ?_
      exact (hinv.listed _ _).mpr ⟨c, g, rfl, Server.registeredAs_eq_some.mpr ⟨ph, hph, hg⟩, rfl⟩
    · rw [htold]
      exact hs.fits c ph₁ (hsame ▸ hph₁)
    · rw [hph'] at hph₁
      obtain rfl := Option.some.inj hph₁
      rw [htold, hs.unheard c hnone]
      exact .inl rfl

/-! ### The account of all events -/

/-- A step is one of the server, or does not concern it. -/
theorem server_of_step {t : Step} (h : step backend s t = some s') :
    s'.server = s.server ∨ ∃ a, s.server.step backend a = some s'.server := by
  cases t with
  | server a =>
      by_cases ha : ∃ c ev, a = .handler c ev
      · obtain ⟨c, ev, rfl⟩ := ha
        obtain ⟨-, -, -, -, -, -, hstep, -⟩ := step_handler h
        exact .inr ⟨_, hstep⟩
      · exact .inr ⟨a, (step_server (fun c ev hev => ha ⟨c, ev, hev⟩) h).1⟩
  | send c =>
      obtain ⟨a, -, rfl⟩ := step_send h
      exact .inl rfl
  | _ =>
      obtain ⟨w, rfl⟩ := step_watcher (by simp) h
      exact .inl rfl

theorem told_run {cfg : ServerConfig} {steps : List Step}
    (h : Runs.run (step backend) steps (start cfg) = some s) : s.server.Inv ∧ Told s := by
  apply Runs.run_invariant (P := fun s => s.server.Inv ∧ Told s) ?_ ?_ h
  · refine ⟨Server.inv_start cfg, ?_, ?_, ?_⟩
    · intro c a ha
      cases ha
    · intro c _
      rfl
    · intro c ph hph
      cases hph
  · intro s t s' ⟨hinv, htold⟩ hstep
    refine ⟨?_, told_step hinv htold hstep⟩
    rcases server_of_step hstep with hsame | ⟨a, ha⟩
    · rwa [hsame]
    · exact Server.inv_step hinv ha

/-- A handler announces one tunnel, up first and then down. -/
theorem Told.shape (hs : Told s) (c : Connection) :
    ∃ info, s.told c <+: [⟨c, info, true⟩, ⟨c, info, false⟩] := by
  cases hph : s.server.handlers.lookup c with
  | none =>
      rw [hs.unheard c hph]
      exact ⟨⟨[], c.remoteAddress, []⟩, List.nil_prefix⟩
  | some ph =>
      have hf := hs.fits c ph hph
      rw [Fits] at hf
      cases hg : ph.registered with
      | some g =>
          rw [hg] at hf
          rw [show s.told c = _ from hf]
          exact ⟨c.info g, [_], rfl⟩
      | none =>
          rw [hg] at hf
          rcases hf with hnil | ⟨-, g, hboth⟩
          · rw [hnil]
            exact ⟨⟨[], c.remoteAddress, []⟩, List.nil_prefix⟩
          · rw [hboth]
            exact ⟨c.info g, List.prefix_rfl⟩

/-- Registry and events change together. -/
theorem events_perform {server : Server} {ph : Phase} {eff : Effect} :
    ((server.advance c ph).perform c eff).control.events =
      server.control.events ++ ((announcement server c eff).map Announcement.event).toList := by
  cases eff with
  | register g => rfl
  | unregister =>
      show (server.control.unregister c.stableId).events = _
      unfold Control.unregister announcement
      cases server.control.tunnels.lookup c.stableId with
      | none => simp
      | some info => simp [Announcement.event]
  | _ => simp [Server.perform, Server.advance, announcement]

/-- Only handlers change the registry. -/
theorem control_of_step {server server' : Server} {a : Action} (ha : ∀ c ev, a ≠ .handler c ev)
    (h : server.step backend a = some server') : server'.control = server.control := by
  cases a with
  | handler c ev => exact absurd rfl (ha c ev)
  | accept c =>
      obtain ⟨-, rfl⟩ := Server.step_accept h
      rfl
  | _ =>
      obtain rfl := Option.some.inj h
      rfl

/-- Sent or in flight, every event is there once. -/
def Accounted (s : Observed) : Prop :=
  ((s.sent ++ AssocMap.values s.inFlight).map Announcement.event).Perm s.server.control.events

theorem accounted_step {t : Step} (hs : Accounted s) (h : step backend s t = some s') : Accounted s' := by
  cases t with
  | server act =>
      by_cases hact : ∃ c ev, act = .handler c ev
      · obtain ⟨c, ev, rfl⟩ := hact
        obtain ⟨hfree, ph, ph', eff, -, -, -, hserver, hs'⟩ := step_handler h
        rw [Accounted, hserver, events_perform, hs']
        cases announcement s.server c eff with
        | none => simpa [Accounted] using hs
        | some a =>
            rw [Option.elim_some, AssocMap.values_insert hfree, Option.map_some, Option.toList_some]
            refine (List.perm_middle.map _).trans ?_
            exact (List.Perm.cons _ hs).trans (List.perm_append_singleton _ _).symm
      · obtain ⟨hstep, hs'⟩ := step_server (fun c ev hev => hact ⟨c, ev, hev⟩) h
        rw [Accounted, control_of_step (fun c ev hev => hact ⟨c, ev, hev⟩) hstep, hs']
        exact hs
  | send c =>
      obtain ⟨a, ha, rfl⟩ := step_send h
      refine List.Perm.trans (List.Perm.map _ ?_) hs
      rw [List.append_assoc]
      exact (AssocMap.perm_values_erase ha).append_left s.sent
  | _ =>
      obtain ⟨w, rfl⟩ := step_watcher (by simp) h
      exact hs

/-- The tunnels that came up are those that went down and those in the registry, with their numbers. -/
def Balanced (ctl : Control) : Prop :=
  ((ctl.events.filter fun e => e.isUp).map ControlEvent.key).Perm
    ((ctl.events.filter fun e => !e.isUp).map ControlEvent.key ++
      (AssocMap.values ctl.tunnels).map TunnelInfo.key)

theorem balanced_register {ctl : Control} {i : ℕ} {info : TunnelInfo} (hs : Balanced ctl)
    (hfree : ctl.tunnels.lookup i = none) : Balanced (ctl.register i info) := by
  unfold Balanced Control.register
  rw [AssocMap.values_insert hfree]
  simp only [List.filter_append, List.map_append, List.filter_singleton, ControlEvent.isUp_tunnelUp, cond_true,
    Bool.not_true, cond_false, List.map_nil, List.append_nil, List.map_cons, ControlEvent.key_tunnelUp]
  refine (List.perm_append_singleton _ _).trans ?_
  exact (List.Perm.cons _ hs).trans List.perm_middle.symm

theorem balanced_unregister {ctl : Control} {i : ℕ} (hs : Balanced ctl) : Balanced (ctl.unregister i) := by
  unfold Balanced Control.unregister
  cases hi : ctl.tunnels.lookup i with
  | none =>
      rw [AssocMap.values_erase_of_none hi]
      exact hs
  | some info =>
      have hvalues := (AssocMap.perm_values_erase hi).map TunnelInfo.key
      simp only [List.filter_append, List.map_append, List.filter_singleton, ControlEvent.isUp_tunnelDown, cond_true,
        Bool.not_false, cond_false, List.map_nil, List.append_nil, List.map_cons, ControlEvent.key_tunnelDown,
        List.append_assoc, List.cons_append, List.nil_append]
      exact hs.trans (hvalues.symm.append_left _)

/-- A handler that is about to register is not listed yet, nor is another under its id. -/
theorem free_of_registering {server : Server} {g : ClientGrant} (hinv : server.Inv)
    (hph : server.handlers.lookup c = some (.registering g)) : server.control.tunnels.lookup c.stableId = none := by
  cases hi : server.control.tunnels.lookup c.stableId with
  | none => rfl
  | some info =>
      obtain ⟨d, g', hid, hreg, -⟩ := (hinv.listed _ _).mp hi
      obtain ⟨ph, hd, hg'⟩ := Server.registeredAs_eq_some.mp hreg
      have hdc := hinv.distinct d c (Server.running_of_registered hd hg') ⟨_, hph, by simp⟩ hid
      rw [hdc, hph] at hd
      obtain rfl := Option.some.inj hd
      cases hg'

theorem balanced_step {server server' : Server} {a : Action} (hinv : server.Inv) (hs : Balanced server.control)
    (h : server.step backend a = some server') : Balanced server'.control := by
  by_cases ha : ∃ c ev, a = .handler c ev
  · obtain ⟨c, ev, rfl⟩ := ha
    obtain ⟨ph, ph', eff, hph, -, htr, rfl⟩ := Server.step_handler h
    have heff := transition_effect htr
    cases eff with
    | register g =>
        obtain ⟨rfl, -⟩ := heff
        have hfree := free_of_registering hinv hph
        exact balanced_register hs hfree
    | unregister => exact balanced_unregister hs
    | _ => exact hs
  · rw [control_of_step (fun c ev hev => ha ⟨c, ev, hev⟩) h]
    exact hs

/-- **No event is lost, sent twice or out of its tunnel's order.**  The events sent and those in flight are the
ones that `register` and `unregister` made.  Every connection announces one tunnel, up and then down.  The
tunnels that came up are those that went down and those in the registry, each as often. -/
theorem events_account {cfg : ServerConfig} {steps : List Step}
    (h : Runs.run (step backend) steps (start cfg) = some s) :
    let made := s.sent ++ AssocMap.values s.inFlight
    (made.map Announcement.event).Perm s.server.control.events ∧
    (∀ c, ∃ info, s.sent.filter (fun a => a.conn = c) ++ (s.inFlight.lookup c).toList <+:
      [⟨c, info, true⟩, ⟨c, info, false⟩]) ∧
    ((made.filter fun a => a.up).map fun a => a.info.key).Perm
      (((made.filter fun a => !a.up).map fun a => a.info.key) ++ (tunnels s.server).map TunnelInfo.key) := by
  obtain ⟨hinv, htold⟩ := told_run h
  have haccount : Accounted s ∧ Balanced s.server.control ∧ s.server.Inv := by
    apply Runs.run_invariant (P := fun s => Accounted s ∧ Balanced s.server.control ∧ s.server.Inv) ?_ ?_ h
    · exact ⟨List.Perm.refl _, List.Perm.refl _, Server.inv_start cfg⟩
    · intro s t s' ⟨hacc, hbal, hinv⟩ hstep
      refine ⟨accounted_step hacc hstep, ?_⟩
      rcases server_of_step hstep with hsame | ⟨a, ha⟩
      · rw [hsame]
        exact ⟨hbal, hinv⟩
      · exact ⟨balanced_step hinv hbal ha, Server.inv_step hinv ha⟩
  refine ⟨haccount.1, htold.shape, ?_⟩
  have hkeys : ∀ p : Bool → Bool, ((((s.sent ++ AssocMap.values s.inFlight).filter fun a => p a.up).map
      fun a => a.info.key).Perm ((s.server.control.events.filter fun e => p e.isUp).map ControlEvent.key)) := by
    intro p
    have hp := (haccount.1.filter fun e => p e.isUp).map ControlEvent.key
    rw [List.filter_map, List.map_map] at hp
    simpa [Function.comp_def] using hp
  exact (hkeys id).trans (haccount.2.1.trans ((hkeys not).symm.append_right _))

theorem events_account_overtaken :
    ∃ s, Runs.run (step fun _ _ => true) overtaken (start {}) = some s ∧
      s.sent.map (fun a => (a.info.clientName, a.up)) = [(['b'], true), (['a'], true), (['a'], false)] ∧
      ((s.sent ++ AssocMap.values s.inFlight).map Announcement.event).Perm s.server.control.events := by
  have hrun : (Runs.run (step fun _ _ => true) overtaken (start {})).any (fun s =>
      s.sent.map (fun a => (a.info.clientName, a.up)) = [(['b'], true), (['a'], true), (['a'], false)]) = true := by
    decide +kernel
  obtain ⟨s, hs, hsent⟩ := (Option.any_eq_true _ _).mp hrun
  exact ⟨s, hs, of_decide_eq_true hsent, (events_account hs).1⟩

/-! ### What a watcher knows -/

/-- The events as a feed, where a source is a connection with what it registered. -/
def feed (s : Observed) : Feeds.Feed (Connection × TunnelInfo) where
  log := s.sent.map fun a => ((a.conn, a.info), a.up)
  said t := (s.told t.1).filterMap fun a => if a.info = t.2 then some a.up else none

theorem heard_feed (s : Observed) (t : Connection × TunnelInfo) :
    Feeds.heard s.feed.log t =
      (s.sent.filter fun a => a.conn = t.1).filterMap fun a => if a.info = t.2 then some a.up else none := by
  unfold Feeds.heard feed
  rw [List.filterMap_map, List.filterMap_filter]
  congr 1
  funext a
  by_cases hconn : a.conn = t.1
  · by_cases hinfo : a.info = t.2
    · simp [hconn, hinfo]
    · simp [Prod.ext_iff, hconn, hinfo]
  · simp [Prod.ext_iff, hconn]

theorem said_eq (s : Observed) (t : Connection × TunnelInfo) :
    s.feed.said t = Feeds.heard s.feed.log t ++
      (s.inFlight.lookup t.1).toList.filterMap fun a => if a.info = t.2 then some a.up else none := by
  rw [heard_feed, ← List.filterMap_append]
  rfl

theorem feed_ok (hs : Told s) : s.feed.Ok where
  behind t := by
    rw [said_eq]
    exact List.prefix_append _ _
  shape t := by
    obtain ⟨info, hinfo⟩ := hs.shape t.1
    refine (hinfo.filterMap _).trans ?_
    by_cases h : info = t.2
    · simp [h]
    · simp [h]

/-- Nothing that was sent or told is taken back. -/
theorem feed_le {t : Step} (hs : Told s) (h : step backend s t = some s') : s.feed.Le s'.feed where
  log := by
    refine List.IsPrefix.map _ ?_
    cases t with
    | server act =>
        by_cases hact : ∃ c ev, act = .handler c ev
        · obtain ⟨c, ev, rfl⟩ := hact
          obtain ⟨-, ph, ph', eff, -, -, -, -, hs'⟩ := step_handler h
          rw [hs']
        · obtain ⟨-, hs'⟩ := step_server (fun c ev hev => hact ⟨c, ev, hev⟩) h
          rw [hs']
    | send c =>
        obtain ⟨a, -, rfl⟩ := step_send h
        exact List.prefix_append _ _
    | _ =>
        obtain ⟨w, rfl⟩ := step_watcher (by simp) h
        exact List.prefix_rfl
  said t := by
    refine List.IsPrefix.filterMap _ ?_
    rcases step_told hs.own h t.1 with ⟨ev, ph, ph', eff, -, -, -, htold⟩ | ⟨htold, -⟩
    · rw [htold]
      exact List.prefix_append _ _
    · rw [htold]

/-- A tunnel is up when its handler is registered. -/
theorem mem_up_feed (hs : Told s) {t : Connection × TunnelInfo} :
    t ∈ s.feed.up ↔ ∃ g, s.server.registeredAs t.1 = some g ∧ t.2 = t.1.info g := by
  show (s.told t.1).filterMap _ = [true] ↔ _
  unfold Server.registeredAs
  cases hph : s.server.handlers.lookup t.1 with
  | none => simp [hs.unheard t.1 hph]
  | some ph =>
      have hf := hs.fits t.1 ph hph
      rw [Fits] at hf
      rw [Option.bind_some]
      cases hg : ph.registered with
      | some g =>
          rw [hg] at hf
          rw [show s.told t.1 = _ from hf]
          by_cases hinfo : t.1.info g = t.2
          · simp [hinfo]
          · simp [hinfo, Ne.symm hinfo]
      | none =>
          rw [hg] at hf
          rcases hf with hnil | ⟨-, g, hboth⟩
          · simp [hnil]
          · by_cases hinfo : t.1.info g = t.2
            · simp [hboth, hinfo]
            · simp [hboth, hinfo]

/-- The registry has the tunnels that are up. -/
theorem key_up (hinv : s.server.Inv) (hs : Told s) :
    (fun t => t.2.key) '' s.feed.up = keys (tunnels s.server) := by
  ext k
  simp only [Set.mem_image, mem_up_feed hs, keys, tunnels, Finset.mem_coe, List.mem_toFinset, List.mem_map,
    AssocMap.mem_values]
  constructor
  · rintro ⟨t, ⟨g, hreg, hinfo⟩, rfl⟩
    exact ⟨t.2, ⟨t.1.stableId, (hinv.listed _ _).mpr ⟨t.1, g, rfl, hreg, hinfo⟩⟩, rfl⟩
  · rintro ⟨info, ⟨i, hi⟩, rfl⟩
    obtain ⟨c, g, -, hreg, hinfo⟩ := (hinv.listed _ _).mp hi
    exact ⟨(c, info), ⟨g, hreg, hinfo⟩, rfl⟩

/-- What a watcher has seen, when it subscribed at the time of `f₀`. -/
structure Watches (s : Observed) (w : Watcher) (f₀ : Feeds.Feed (Connection × TunnelInfo)) : Prop where
  ok : f₀.Ok
  le : f₀.Le s.feed
  next : w.next = f₀.log.length + w.received.length + w.missed
  bound : w.next ≤ s.sent.length
  /-- It got what was sent since then, in order, except for what it missed. -/
  received : w.received.Sublist (((s.sent.take w.next).drop f₀.log.length).map Announcement.event)
  /-- The snapshot is of a later time. -/
  snapshot : ∀ infos, w.snapshot = some infos →
    ∃ f₁, f₀.Le f₁ ∧ f₁.Le s.feed ∧ (fun t => t.2.key) '' f₁.up = (keys infos : Set (Text × SocketAddr))

variable {w w' : Watcher} {f₀ : Feeds.Feed (Connection × TunnelInfo)}

theorem Watches.later (hw : Watches s w f₀) (hle : s.feed.Le s'.feed) (hsent : s.sent <+: s'.sent) :
    Watches s' w f₀ where
  ok := hw.ok
  le := hw.le.trans hle
  next := hw.next
  bound := hw.bound.trans hsent.length_le
  received := by
    obtain ⟨rest, hrest⟩ := hsent
    rw [← hrest, List.take_append_of_le_length hw.bound]
    exact hw.received
  snapshot infos hinfos := by
    obtain ⟨f₁, h₀₁, h₁, hkeys⟩ := hw.snapshot infos hinfos
    exact ⟨f₁, h₀₁, h₁.trans hle, hkeys⟩

theorem Watches.receive (hw : Watches s w f₀) (h : receive s.sent w = some w') : Watches s w' f₀ := by
  simp only [Observed.receive] at h
  have hnext := hw.next
  split_ifs at h with hlag
  · -- what was pushed out is skipped
    obtain rfl := Option.some.inj h
    refine ⟨hw.ok, hw.le, ?_, ?_, ?_, hw.snapshot⟩
    · dsimp only
      omega
    · exact Nat.sub_le _ _
    · refine hw.received.trans (List.Sublist.map _ ?_)
      exact (List.take_sublist_take_left hlag.le).drop _
  · obtain ⟨a, ha, rfl⟩ := Option.map_eq_some_iff.mp h
    obtain ⟨hlt, -⟩ := List.getElem?_eq_some_iff.mp ha
    refine ⟨hw.ok, hw.le, ?_, hlt, ?_, hw.snapshot⟩
    · show w.next + 1 = _ + (w.received ++ [a.event]).length + w.missed
      rw [List.length_append, List.length_singleton]
      omega
    · show (w.received ++ [a.event]).Sublist _
      have hlen : f₀.log.length ≤ (s.sent.take w.next).length := by
        rw [List.length_take_of_le hw.bound]
        omega
      rw [List.take_add_one, ha, Option.toList_some, List.drop_append_of_le_length hlen, List.map_append]
      exact hw.received.append (List.Sublist.refl _)

theorem watches_step {t : Step} (hinv : s.server.Inv) (hs : Told s)
    (hw : ∀ w, s.watcher = some w → ∃ f₀, Watches s w f₀) (h : step backend s t = some s') :
    ∀ w, s'.watcher = some w → ∃ f₀, Watches s' w f₀ := by
  have hle := feed_le hs h
  cases t with
  | server act =>
      have hsame : s'.watcher = s.watcher ∧ s'.sent = s.sent := by
        by_cases hact : ∃ c ev, act = .handler c ev
        · obtain ⟨c, ev, rfl⟩ := hact
          obtain ⟨-, ph, ph', eff, -, -, -, -, hs'⟩ := step_handler h
          rw [hs']
          exact ⟨rfl, rfl⟩
        · obtain ⟨-, hs'⟩ := step_server (fun c ev hev => hact ⟨c, ev, hev⟩) h
          rw [hs']
          exact ⟨rfl, rfl⟩
      intro w hwatch
      obtain ⟨f₀, hf₀⟩ := hw w (hsame.1 ▸ hwatch)
      exact ⟨f₀, hf₀.later hle (hsame.2 ▸ List.prefix_rfl)⟩
  | send c =>
      obtain ⟨a, -, rfl⟩ := step_send h
      intro w hwatch
      obtain ⟨f₀, hf₀⟩ := hw w hwatch
      exact ⟨f₀, hf₀.later hle (List.prefix_append _ _)⟩
  | subscribe =>
      cases h
      intro w hwatch
      cases hwatch
      exact ⟨s.feed, feed_ok hs, .refl _, by simp [feed], le_rfl, by simp, fun infos hinfos => nomatch hinfos⟩
  | snapshot =>
      obtain ⟨w₀, hw₀, rfl⟩ := Option.map_eq_some_iff.mp h
      intro w hwatch
      cases hwatch
      obtain ⟨f₀, hf₀⟩ := hw w₀ hw₀
      refine ⟨f₀, hf₀.ok, hf₀.le, hf₀.next, hf₀.bound, hf₀.received, fun infos hinfos => ?_⟩
      cases hinfos
      exact ⟨s.feed, hf₀.le, .refl _, key_up hinv hs⟩
  | receive =>
      obtain ⟨w₀, hw₀, h⟩ := Option.bind_eq_some_iff.mp h
      obtain ⟨w₁, hw₁, rfl⟩ := Option.map_eq_some_iff.mp h
      intro w hwatch
      cases hwatch
      obtain ⟨f₀, hf₀⟩ := hw w₀ hw₀
      exact ⟨f₀, (hf₀.receive hw₁).later hle List.prefix_rfl⟩

theorem watches_run {cfg : ServerConfig} {steps : List Step}
    (h : Runs.run (step backend) steps (start cfg) = some s) (hw : s.watcher = some w) :
    ∃ f₀, Watches s w f₀ := by
  have hall : s.server.Inv ∧ Told s ∧ ∀ w, s.watcher = some w → ∃ f₀, Watches s w f₀ := by
    refine Runs.run_history (P := fun _ s => s.server.Inv ∧ Told s ∧ ∀ w, s.watcher = some w →
      ∃ f₀, Watches s w f₀) ?_ ?_ h
    · have hstart : Runs.run (step backend) [] (start cfg) = some (start cfg) := rfl
      obtain ⟨hinv, htold⟩ := told_run hstart
      exact ⟨hinv, htold, fun w hw => nomatch hw⟩
    · intro steps s t s' hrun ⟨hinv, htold, hwatch⟩ hstep
      obtain ⟨hinv', htold'⟩ := told_run (Runs.run_concat.mpr ⟨s, hrun, hstep⟩)
      exact ⟨hinv', htold', watches_step hinv htold hwatch hstep⟩
  exact hall.2.2 w hw

/-- A view is what a follower of the feed makes of its snapshot. -/
theorem coe_foldl_view (view : Finset (Text × SocketAddr)) (events : List Announcement) :
    (((events.map Announcement.event).foldl
        (fun view e => if e.isUp then insert e.key view else view.erase e.key) view :
          Finset (Text × SocketAddr)) : Set (Text × SocketAddr)) =
      Feeds.follow (fun t : Connection × TunnelInfo => t.2.key) view
        (events.map fun a => ((a.conn, a.info), a.up)) := by
  induction events generalizing view with
  | nil => rfl
  | cons a events ih =>
      rw [List.map_cons, List.map_cons, List.foldl_cons, ih, Feeds.follow, Feeds.follow, List.foldl_cons]
      cases ha : a.up <;> simp [ha]

/-- **A watcher that heard everything knows the registry.**  Let a watcher have a snapshot, and have received
everything sent since it subscribed, with nothing in flight.  If no two announced connections are the same
client from the same address, its view is the registry: neither the order in which handlers get to send their
events, nor events that the snapshot has already, leave a trace. -/
theorem watcher_agrees {cfg : ServerConfig} {steps : List Step} {infos : List TunnelInfo}
    (h : Runs.run (step backend) steps (start cfg) = some s) (hw : s.watcher = some w)
    (hsnapshot : w.snapshot = some infos) (hmissed : w.missed = 0) (hnext : w.next = s.sent.length)
    (hidle : s.inFlight = ∅)
    (hkeys : ∀ a ∈ s.sent, ∀ b ∈ s.sent, a.info.key = b.info.key → a.conn = b.conn) :
    w.view = keys (tunnels s.server) := by
  obtain ⟨hinv, htold⟩ := told_run h
  obtain ⟨f₀, hf₀⟩ := watches_run h hw
  obtain ⟨f₁, h₀₁, h₁, hup⟩ := hf₀.snapshot infos hsnapshot
  have hreceived : w.received = (s.sent.drop f₀.log.length).map Announcement.event := by
    have hsub := hf₀.received
    rw [hnext, List.take_length] at hsub
    refine hsub.eq_of_length ?_
    have hlen := hf₀.next
    rw [List.length_map, List.length_drop]
    omega
  have hsaid : ∀ t, s.feed.said t = Feeds.heard s.feed.log t := by
    intro t
    rw [said_eq, hidle]
    simp
  -- an announced source has an event among those sent
  have hsource : ∀ t, s.feed.said t ≠ [] → ∃ a ∈ s.sent, a.conn = t.1 ∧ a.info = t.2 := by
    intro t ht
    by_contra hnone
    rw [hsaid, heard_feed] at ht
    refine ht (List.filterMap_eq_nil_iff.mpr fun a ha => ?_)
    obtain ⟨hsent, hconn⟩ := List.mem_filter.mp ha
    exact if_neg fun hinfo => hnone ⟨a, hsent, of_decide_eq_true hconn, hinfo⟩
  have hinj : Set.InjOn (fun t : Connection × TunnelInfo => t.2.key) {t | s.feed.said t ≠ []} := by
    intro t ht t' ht' hkey
    obtain ⟨a, ha, hconn, hinfo⟩ := hsource t ht
    obtain ⟨b, hb, hconn', hinfo'⟩ := hsource t' ht'
    have hc : a.conn = b.conn := hkeys a ha b hb (by rw [hinfo, hinfo']; exact hkey)
    obtain ⟨info, hone⟩ := htold.shape t.1
    have hsame : ∀ d ∈ s.sent, d.conn = t.1 → d.info = info := by
      intro d hd hdc
      have hmem : d ∈ s.told t.1 := List.mem_append_left _ (List.mem_filter.mpr ⟨hd, by simpa using hdc⟩)
      have hd := hone.subset hmem
      simp only [List.mem_cons, List.not_mem_nil, or_false] at hd
      rcases hd with rfl | rfl <;> rfl
    refine Prod.ext (by rw [← hconn, ← hconn', hc]) ?_
    rw [← hinfo, ← hinfo', hsame a ha hconn, hsame b hb (hc ▸ hconn)]
  have hfollow := Feeds.follow_eq hf₀.ok (feed_ok htold) h₀₁ h₁ (fun t => (hsaid t).symm) hinj
  apply Finset.coe_injective
  rw [Watcher.view, hsnapshot, hreceived, Option.getD_some, coe_foldl_view, ← hup, ← key_up hinv htold,
    ← hfollow, List.map_drop]
  rfl

theorem watcher_agrees_overtaken :
    ∃ s w, Runs.run (step fun _ _ => true) overtaken (start {}) = some s ∧ s.watcher = some w ∧
      w.received.length = 3 ∧ w.view = keys (tunnels s.server) := by
  have hrun : (Runs.run (step fun _ _ => true) overtaken (start {})).any (fun s => s.watcher.any fun w =>
      decide (w.received.length = 3) && decide (w.snapshot.isSome) && decide (w.missed = 0) &&
        decide (w.next = s.sent.length) && decide (s.inFlight.entries = []) &&
        s.sent.all fun a => s.sent.all fun b => decide (a.info.key = b.info.key → a.conn = b.conn)) = true := by
    decide +kernel
  obtain ⟨s, hs, hwatcher⟩ := (Option.any_eq_true _ _).mp hrun
  obtain ⟨w, hw, hall⟩ := (Option.any_eq_true _ _).mp hwatcher
  simp only [Bool.and_eq_true, decide_eq_true_eq, List.all_eq_true] at hall
  obtain ⟨⟨⟨⟨⟨hlen, hsnapshot⟩, hmissed⟩, hnext⟩, hidle⟩, hkeys⟩ := hall
  obtain ⟨infos, hinfos⟩ := Option.isSome_iff_exists.mp hsnapshot
  exact ⟨s, w, hs, hw, hlen, watcher_agrees hs hw hinfos hmissed hnext (AList.ext hidle) hkeys⟩

end Observed

end Tuyau
