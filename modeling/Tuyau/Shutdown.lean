import Tuyau.Observers

/-! # How a server ends

`shutdown` cancels, closes the endpoint, waits for the two accept loops, and then for the endpoint to be idle.
It does not wait for the handlers of the tunnels, which find out by themselves: from the cancellation or because
their connection is closed.  The endpoint can also be lost without a shutdown, when its driver fails; the tunnel
loop then ends, which `healthy` tells.

Every step of a handler lowers the rank of its phase, and a handler that waits always has a step once the endpoint
is gone.  The main result is `shutdown_drains`: from then on, in every run, the handlers, the loops and `shutdown` come
to an end after a bounded number of steps, and leave neither a route nor a registered tunnel, nor a tunnel that came
up and was not announced to be down. -/

namespace Tuyau

open AsciiText RoutingTable

/-! ### Handlers end -/

/-- A bound on the steps of a handler from a phase on. -/
def Phase.rank : Phase → ℕ
  | .acceptBi => 10
  | .awaitHello => 9
  | .admitting _ => 8
  | .granted _ => 7
  | .installing _ => 6
  | .welcoming _ => 5
  | .registering _ => 4
  | .tunnel _ => 3
  | .cleaning _ | .rejecting _ => 2
  | .unregistering _ | .abandoning _ | .lingering => 1
  | .done => 0

theorem rank_lt_of_transition {ph ph' : Phase} {ev : Event} {eff : Effect}
    (h : transition ph ev = some (ph', eff)) : ph'.rank < ph.rank := by
  unfold transition at h
  split at h
  all_goals first
    | (cases h; simp [Phase.rank])
    | cases h

theorem Phase.rank_le (ph : Phase) : ph.rank ≤ if ph = .done then 0 else 10 := by
  cases ph <;> simp [Phase.rank]

namespace RoutingTable

/-- The order of strings, by code points. -/
def textLe : Text → Text → Bool
  | [], _ => true
  | _ :: _, [] => false
  | a :: as, b :: bs => decide (a.toNat < b.toNat) || decide (a = b) && textLe as bs

/-- Sorted snapshot of the hosts that a tunnel or a local upstream serves. -/
def activeHostnames (t : RoutingTable) : List Text :=
  ((t.inner.keys ++ t.locals.keys).mergeSort textLe).destutter (· ≠ ·)

theorem locals_call {t : RoutingTable} {op : Op} : (t.call op).locals = t.locals := by
  by_cases hop : ∃ full, op = .setTerminated full
  · obtain ⟨full, rfl⟩ := hop
    rfl
  · obtain ⟨inner, hinner⟩ := sameConfig_call (t := t) fun full hfull => hop ⟨full, hfull⟩
    rw [hinner]

theorem nonempty_call {t : RoutingTable} {op : Op} (h : Entries (fun _ e => e.conns ≠ []) t.inner) :
    Entries (fun _ e => e.conns ≠ []) (t.call op).inner :=
  Entries.call (fun _ _ _ _ _ _ _ => HostRoutes.give_ne_nil) (fun _ _ _ _ hne => hne) (fun _ _ _ he => he) h

end RoutingTable

namespace Server

variable {backend : Token → Option ClientGrant → Bool} {s s' : Server} {c : Connection}

/-- The connections whose handler is not finished. -/
def running (s : Server) : List Connection :=
  (s.handlers.entries.filter fun e => e.2 ≠ .done).map Sigma.fst

theorem mem_running : c ∈ s.running ↔ s.Running c := by
  simp only [running, List.mem_map, List.mem_filter, decide_eq_true_eq, Running]
  constructor
  · rintro ⟨⟨c, ph⟩, ⟨hmem, hne⟩, rfl⟩
    exact ⟨ph, AList.mem_lookup_iff.mpr hmem, hne⟩
  · rintro ⟨ph, hph, hne⟩
    exact ⟨⟨c, ph⟩, ⟨AList.mem_lookup_iff.mp hph, hne⟩, rfl⟩

/-- The steps that handlers have left, at most. -/
def work (s : Server) : ℕ := ((AssocMap.values s.handlers).map Phase.rank).sum

theorem work_advance {ph ph' : Phase} (hph : s.handlers.lookup c = some ph) :
    (s.advance c ph').work + ph.rank = s.work + ph'.rank := by
  have hperm := ((AssocMap.perm_values_erase hph).map Phase.rank).sum_nat
  unfold work advance
  rw [AssocMap.values_insert_eq_cons]
  simp only [List.map_cons, List.sum_cons] at hperm ⊢
  omega

theorem work_step {a : Action} (h : step backend s a = some s') (hacc : ∀ c, a ≠ .accept c) :
    s'.work + (if a matches .handler .. then 1 else 0) ≤ s.work := by
  cases a with
  | accept c => exact absurd rfl (hacc c)
  | handler c ev =>
      obtain ⟨ph, ph', eff, hph, -, htr, rfl⟩ := step_handler h
      have hrank := rank_lt_of_transition htr
      have hwork : (s.advance c ph').work + ph.rank = s.work + ph'.rank := work_advance hph
      have hsame : ((s.advance c ph').perform c eff).work = (s.advance c ph').work := by
        rw [work, perform_handlers]
        rfl
      rw [hsame]
      show _ + 1 ≤ _
      omega
  | _ =>
      obtain rfl := Option.some.inj h
      exact le_rfl

theorem work_le (s : Server) : s.work ≤ 10 * s.running.length := by
  unfold work running AssocMap.values
  rw [List.length_map, List.map_map]
  induction s.handlers.entries with
  | nil => simp
  | cons e l ih =>
      have he := Phase.rank_le e.2
      by_cases hdone : e.2 = .done
      · rw [if_pos hdone] at he
        simp [hdone] at he ih ⊢
        omega
      · rw [if_neg hdone] at he
        simp [hdone] at ih ⊢
        omega

/-- `Endpoint::close`, or the loss of the endpoint: every connection of a handler is closed. -/
def closeAll (s : Server) : Server :=
  { s with closes := s.closes ++ s.running.map fun c => (c, .serverShutdown) }

theorem closed_closeAll (hc : s.Running c) : s.closeAll.closed c = true := by
  have hmem : (c, .serverShutdown) ∈ s.closeAll.closes :=
    List.mem_append_right _ (List.mem_map.mpr ⟨c, mem_running.mpr hc, rfl⟩)
  rw [closed, Bool.or_eq_true, decide_eq_true_eq, decide_eq_true_eq]
  exact .inr (List.mem_map.mpr ⟨_, hmem, rfl⟩)

theorem inv_closeAll (hs : Inv s) : Inv s.closeAll where
  distinct := hs.distinct
  agrees := by
    have hledger : s.closeAll.ledger = s.ledger := by
      refine Leases.Ledger.ext rfl rfl (Set.ext fun c => ?_)
      constructor
      · rintro ⟨cause, hmem, hevicts⟩
        rcases List.mem_append.mp hmem with hmem | hmem
        · exact ⟨cause, hmem, hevicts⟩
        · obtain ⟨d, -, hd⟩ := List.mem_map.mp hmem
          cases hd
          cases hevicts
      · rintro ⟨cause, hmem, hevicts⟩
        exact ⟨cause, List.mem_append_left _ hmem, hevicts⟩
    rw [hledger]
    exact hs.agrees
  listed := hs.listed
  afterClose c ph hph hafter := by
    have hclosed := hs.afterClose c ph hph hafter
    have hsub : s.closes.map Prod.fst ⊆ s.closeAll.closes.map Prod.fst :=
      List.map_subset _ (List.subset_append_left _ _)
    rw [closed, Bool.or_eq_true, decide_eq_true_eq, decide_eq_true_eq] at hclosed ⊢
    exact hclosed.imp_right fun h => hsub h

/-- A handler that is not finished has a step, if its connection is closed. -/
theorem exists_step (hc : s.Running c) (hclosed : s.closed c = true) :
    ∃ ev s', step backend s (.handler c ev) = some s' := by
  obtain ⟨ph, hph, hne⟩ := hc
  have henabled : ∀ ev, s.occurs backend c ph ev = true → (transition ph ev).isSome = true →
      ∃ ev s', step backend s (.handler c ev) = some s' := by
    intro ev hocc htr
    obtain ⟨⟨ph', eff⟩, htr⟩ := Option.isSome_iff_exists.mp htr
    exact ⟨ev, (s.advance c ph').perform c eff, by simp [step, hph, hocc, htr]⟩
  cases ph with
  | acceptBi => exact henabled .streamTimeout rfl rfl
  | awaitHello => exact henabled .helloTimeout rfl rfl
  | admitting hello => exact henabled .admitTimeout rfl rfl
  | granted g => exact henabled (.closeCheck true) (by simp [occurs, hclosed]) rfl
  | installing g => exact henabled .install rfl rfl
  | welcoming g => exact henabled .welcomeFailed rfl rfl
  | registering g => exact henabled .register rfl rfl
  | tunnel g => exact henabled .closed hclosed rfl
  | cleaning g => exact henabled .removeConn rfl rfl
  | unregistering g => exact henabled .unregister rfl rfl
  | abandoning g => exact henabled .removeConn rfl rfl
  | rejecting reason => exact henabled .rejectFailed rfl rfl
  | lingering => exact henabled .lingered rfl rfl
  | done => exact absurd rfl hne

end Server

/-! ### The life of a server -/

/-- How far a call of `shutdown` is. -/
inductive Shutdown where
  | notCalled
  | cancelled
  | endpointClosed
  | acceptJoined
  | publicJoined
  | returned
deriving DecidableEq

/-- The steps that `shutdown` has left once it is called. -/
def Shutdown.rank : Shutdown → ℕ
  | notCalled => 4
  | cancelled => 4
  | endpointClosed => 3
  | acceptJoined => 2
  | publicJoined => 1
  | returned => 0

/-- A server with its two accept loops; there need not be a public one. -/
structure Lifecycle where
  server : Server
  acceptFinished : Bool
  publicFinished : Option Bool
  endpointGone : Bool
  shutdown : Shutdown

namespace Lifecycle

/-- A server that has just started, with the `public_listen_addr` of its configuration. -/
def start (cfg : ServerConfig) (publicListenAddr : Option SocketAddr) : Lifecycle where
  server := Server.start cfg
  acceptFinished := false
  publicFinished := publicListenAddr.map fun _ => false
  endpointGone := false
  shutdown := .notCalled

/-- Neither accept loop has stopped. -/
def healthy (s : Lifecycle) : Bool := !s.acceptFinished && decide (s.publicFinished ≠ some true)

inductive Step where
  | server (a : Action)
  | endpointLost
  | acceptLoopEnds
  | publicLoopEnds
  /-- The operator calls `shutdown`. -/
  | callShutdown
  | shutdown

/-- A connection is accepted only while there is an endpoint, and `shutdown` takes the server from the operator. -/
def allows (s : Lifecycle) : Action → Bool
  | .accept _ => !s.endpointGone
  | .kick _ | .setTerminatedDomains _ => decide (s.shutdown = .notCalled)
  | .cancel => false
  | _ => true

/-- The next step of `shutdown` after its call, which cancels. -/
def shutdownStep (s : Lifecycle) : Option Lifecycle :=
  match s.shutdown with
  | .notCalled => none
  | .cancelled => some { s with server := s.server.closeAll, endpointGone := true, shutdown := .endpointClosed }
  | .endpointClosed => if s.acceptFinished then some { s with shutdown := .acceptJoined } else none
  | .acceptJoined => if s.publicFinished = some false then none else some { s with shutdown := .publicJoined }
  -- `wait_idle` waits for the closed connections to drain, which takes the peers or a timer
  | .publicJoined => some { s with shutdown := .returned }
  | .returned => none

variable (backend : Token → Option ClientGrant → Bool)

def step (s : Lifecycle) : Step → Option Lifecycle
  | .server a => if s.allows a then (s.server.step backend a).map fun server => { s with server } else none
  | .endpointLost =>
      if s.endpointGone then none else some { s with server := s.server.closeAll, endpointGone := true }
  | .acceptLoopEnds =>
      if (s.server.cancelled || s.endpointGone) && !s.acceptFinished then some { s with acceptFinished := true }
      else none
  | .publicLoopEnds =>
      if s.server.cancelled && decide (s.publicFinished = some false) then some { s with publicFinished := some true }
      else none
  | .callShutdown =>
      if s.shutdown = .notCalled then
        some { s with server := { s.server with cancelled := true }, shutdown := .cancelled }
      else none
  | .shutdown => s.shutdownStep

/-- The steps of handlers, accept loops and `shutdown`; the others are those of peers and of the operator, whose
call of `shutdown` is one of them. -/
def Step.isOwn : Step → Bool
  | server (.handler _ _) => true
  | server _ => false
  | endpointLost => false
  | acceptLoopEnds => true
  | publicLoopEnds => true
  | callShutdown => false
  | shutdown => true

/-- The own steps left, at most. -/
def work (s : Lifecycle) : ℕ :=
  s.server.work + (if s.acceptFinished then 0 else 1) + (if s.publicFinished = some false then 1 else 0) +
    s.shutdown.rank

/-! ### What holds of every life -/

/-- What every reachable state has. -/
structure Inv (cfg : ServerConfig) (s : Lifecycle) : Prop where
  server : s.server.Inv
  balanced : Observed.Balanced s.server.control
  nonempty : Entries (fun _ e => e.conns ≠ []) s.server.routes.inner
  locals : s.server.routes.locals = (fromConfig cfg.hostnames cfg.upstreams).locals
  cancelled : s.shutdown ≠ .notCalled → s.server.cancelled = true
  gone : s.shutdown ≠ .notCalled → s.shutdown ≠ .cancelled → s.endpointGone = true
  closed : s.endpointGone = true → ∀ c, s.server.Running c → s.server.closed c = true
  /-- A loop ends for a reason. -/
  unhealthy : s.healthy = false → s.server.cancelled = true ∨ s.endpointGone = true

variable {backend} {cfg : ServerConfig} {s s' : Lifecycle} {t : Step}

theorem inv_start (cfg : ServerConfig) (publicListenAddr : Option SocketAddr) :
    Inv cfg (start cfg publicListenAddr) where
  server := Server.inv_start cfg
  balanced := List.Perm.refl _
  nonempty := entries_empty
  locals := rfl
  cancelled h := absurd rfl h
  gone h := absurd rfl h
  closed h := nomatch h
  unhealthy h := by
    cases publicListenAddr with
    | none => cases h
    | some addr => cases h

/-- A step of the server keeps what does not depend on how it ends. -/
theorem inv_server {server : Server} {a : Action} (hs : Inv cfg s) (hallows : s.allows a = true)
    (h : s.server.step backend a = some server) : Inv cfg { s with server } := by
  have hroutes : server.routes = s.server.routes ∨ ∃ op, server.routes = s.server.routes.call op := by
    rcases Server.routes_step hs.server h with hsame | ⟨op, hop, -⟩
    · exact .inl hsame
    · exact .inr ⟨op, eq_call_of_step hop⟩
  have hcancelled : s.server.cancelled = true → server.cancelled = true := by
    intro hc
    cases a with
    | accept c =>
        obtain ⟨-, rfl⟩ := Server.step_accept h
        exact hc
    | handler c ev =>
        obtain ⟨ph, ph', eff, -, -, -, rfl⟩ := Server.step_handler h
        cases eff <;> exact hc
    | cancel => cases hallows
    | _ =>
        obtain rfl := Option.some.inj h
        exact hc
  refine ⟨Server.inv_step hs.server h, Observed.balanced_step hs.server hs.balanced h, ?_, ?_, ?_, hs.gone, ?_, ?_⟩
  · rcases hroutes with hsame | ⟨op, hop⟩
    · rw [hsame]
      exact hs.nonempty
    · rw [hop]
      exact nonempty_call hs.nonempty
  · rcases hroutes with hsame | ⟨op, hop⟩
    · rw [hsame]
      exact hs.locals
    · rw [hop, locals_call]
      exact hs.locals
  · exact fun hcalled => hcancelled (hs.cancelled hcalled)
  · intro hgone c hc
    rcases Server.running_step h hc with rfl | hc
    · rw [allows, hgone] at hallows
      cases hallows
    · exact Server.closed_step h (hs.closed hgone c hc)
  · exact fun hsick => (hs.unhealthy hsick).imp_left hcancelled

/-- Once the endpoint is closed, `shutdown` only waits. -/
theorem Inv.later (hs : Inv cfg s) (hcalled : s.shutdown ≠ .notCalled) (hclosed : s.shutdown ≠ .cancelled)
    (shutdown : Shutdown) : Inv cfg { s with shutdown } where
  server := hs.server
  balanced := hs.balanced
  nonempty := hs.nonempty
  locals := hs.locals
  cancelled _ := hs.cancelled hcalled
  gone _ _ := hs.gone hcalled hclosed
  closed := hs.closed
  unhealthy := hs.unhealthy

theorem inv_step (hs : Inv cfg s) (h : step backend s t = some s') : Inv cfg s' := by
  cases t with
  | server a =>
      obtain ⟨hallows, h⟩ := Option.ite_none_right_eq_some.mp h
      obtain ⟨server, hstep, rfl⟩ := Option.map_eq_some_iff.mp h
      exact inv_server hs hallows hstep
  | endpointLost =>
      obtain ⟨hgone, h⟩ := Option.ite_none_left_eq_some.mp h
      obtain rfl := Option.some.inj h
      exact ⟨Server.inv_closeAll hs.server, hs.balanced, hs.nonempty, hs.locals, hs.cancelled, fun _ _ => rfl,
        fun _ c hc => Server.closed_closeAll hc, fun _ => .inr rfl⟩
  | acceptLoopEnds =>
      obtain ⟨hwhy, h⟩ := Option.ite_none_right_eq_some.mp h
      obtain rfl := Option.some.inj h
      rw [Bool.and_eq_true, Bool.or_eq_true] at hwhy
      exact ⟨hs.server, hs.balanced, hs.nonempty, hs.locals, hs.cancelled, hs.gone, hs.closed, fun _ => hwhy.1⟩
  | publicLoopEnds =>
      obtain ⟨hwhy, h⟩ := Option.ite_none_right_eq_some.mp h
      obtain rfl := Option.some.inj h
      rw [Bool.and_eq_true] at hwhy
      exact ⟨hs.server, hs.balanced, hs.nonempty, hs.locals, hs.cancelled, hs.gone, hs.closed, fun _ => .inl hwhy.1⟩
  | callShutdown =>
      obtain ⟨-, h⟩ := Option.ite_none_right_eq_some.mp h
      obtain rfl := Option.some.inj h
      exact ⟨⟨hs.server.distinct, hs.server.agrees, hs.server.listed, hs.server.afterClose⟩, hs.balanced,
        hs.nonempty, hs.locals, fun _ => rfl, fun _ hne => absurd rfl hne, hs.closed, fun _ => .inl rfl⟩
  | shutdown =>
      simp only [step, shutdownStep] at h
      split at h
      · cases h
      · next hphase =>
          obtain rfl := Option.some.inj h
          exact ⟨Server.inv_closeAll hs.server, hs.balanced, hs.nonempty, hs.locals,
            fun _ => hs.cancelled (by simp [hphase]), fun _ _ => rfl, fun _ c hc => Server.closed_closeAll hc,
            fun _ => .inr rfl⟩
      · next hphase =>
          obtain ⟨-, h⟩ := Option.ite_none_right_eq_some.mp h
          obtain rfl := Option.some.inj h
          exact hs.later (by simp [hphase]) (by simp [hphase]) _
      · next hphase =>
          obtain ⟨-, h⟩ := Option.ite_none_left_eq_some.mp h
          obtain rfl := Option.some.inj h
          exact hs.later (by simp [hphase]) (by simp [hphase]) _
      · next hphase =>
          obtain rfl := Option.some.inj h
          exact hs.later (by simp [hphase]) (by simp [hphase]) _
      · cases h

theorem inv_run {publicListenAddr : Option SocketAddr} {steps : List Step}
    (h : Runs.run (step backend) steps (start cfg publicListenAddr) = some s) : Inv cfg s :=
  Runs.run_invariant (inv_start cfg publicListenAddr) (fun _ _ _ hs h => inv_step hs h) h

/-! ### The end -/

theorem work_shutdownStep (h : s.shutdownStep = some s') (hgone : s.endpointGone = true) :
    s'.endpointGone = true ∧ s'.work + 1 ≤ s.work := by
  unfold shutdownStep at h
  split at h
  · cases h
  · next hphase =>
      obtain rfl := Option.some.inj h
      refine ⟨rfl, ?_⟩
      simp only [work, Server.work, Server.closeAll, hphase, Shutdown.rank]
      omega
  · next hphase =>
      obtain ⟨-, h⟩ := Option.ite_none_right_eq_some.mp h
      obtain rfl := Option.some.inj h
      refine ⟨hgone, ?_⟩
      simp only [work, hphase, Shutdown.rank]
      omega
  · next hphase =>
      obtain ⟨-, h⟩ := Option.ite_none_left_eq_some.mp h
      obtain rfl := Option.some.inj h
      refine ⟨hgone, ?_⟩
      simp only [work, hphase, Shutdown.rank]
      omega
  · next hphase =>
      obtain rfl := Option.some.inj h
      refine ⟨hgone, ?_⟩
      simp only [work, hphase, Shutdown.rank]
      omega
  · cases h

/-- Without an endpoint no step makes more work. -/
theorem work_step (hgone : s.endpointGone = true) (h : step backend s t = some s') :
    s'.endpointGone = true ∧ s'.work + (if t.isOwn then 1 else 0) ≤ s.work := by
  cases t with
  | server a =>
      obtain ⟨hallows, h⟩ := Option.ite_none_right_eq_some.mp h
      obtain ⟨server, hstep, rfl⟩ := Option.map_eq_some_iff.mp h
      refine ⟨hgone, ?_⟩
      have hacc : ∀ c, a ≠ .accept c := by
        rintro c rfl
        rw [allows, hgone] at hallows
        cases hallows
      have hserver := Server.work_step hstep hacc
      simp only [work]
      cases a <;> simp only [Step.isOwn, if_true, Bool.false_eq_true, if_false] at hserver ⊢ <;> omega
  | endpointLost =>
      obtain ⟨hnot, -⟩ := Option.ite_none_left_eq_some.mp h
      exact absurd hgone hnot
  | acceptLoopEnds =>
      obtain ⟨hwhy, h⟩ := Option.ite_none_right_eq_some.mp h
      obtain rfl := Option.some.inj h
      have hrunning : s.acceptFinished = false := by simpa using (Bool.and_eq_true_iff.mp hwhy).2
      refine ⟨hgone, ?_⟩
      simp only [work, Step.isOwn, hrunning, if_true, Bool.false_eq_true, if_false]
      omega
  | publicLoopEnds =>
      obtain ⟨hwhy, h⟩ := Option.ite_none_right_eq_some.mp h
      obtain rfl := Option.some.inj h
      have hrunning : s.publicFinished = some false := by simpa using (Bool.and_eq_true_iff.mp hwhy).2
      refine ⟨hgone, ?_⟩
      simp only [work, Step.isOwn, hrunning, if_true, Option.some.injEq, Bool.true_eq_false, if_false]
      omega
  | callShutdown =>
      obtain ⟨hphase, h⟩ := Option.ite_none_right_eq_some.mp h
      obtain rfl := Option.some.inj h
      refine ⟨hgone, ?_⟩
      simp only [work, Server.work, hphase, Shutdown.rank, Step.isOwn, Bool.false_eq_true, if_false]
      omega
  | shutdown => exact work_shutdownStep h hgone

theorem work_le (s : Lifecycle) : s.work ≤ 10 * s.server.running.length + 6 := by
  have hserver := s.server.work_le
  have hshutdown : s.shutdown.rank ≤ 4 := by cases s.shutdown <;> decide
  unfold work
  split_ifs <;> omega

/-- As long as a handler, a loop or `shutdown` is not finished, one of them has a step. -/
theorem exists_own_step (hs : Inv cfg s) (hgone : s.endpointGone = true)
    (hunfinished : (∃ c, s.server.Running c) ∨ s.healthy = true ∨
      s.shutdown ≠ .notCalled ∧ s.shutdown ≠ .returned) :
    ∃ t s', t.isOwn = true ∧ step backend s t = some s' := by
  have hloop : s.acceptFinished = false → ∃ t s', t.isOwn = true ∧ step backend s t = some s' := by
    intro hrunning
    exact ⟨.acceptLoopEnds, { s with acceptFinished := true }, rfl, by simp [step, hgone, hrunning]⟩
  rcases hunfinished with ⟨c, hc⟩ | hhealthy | ⟨hcalled, hnot⟩
  · obtain ⟨ev, server, hstep⟩ : ∃ ev server, s.server.step backend (.handler c ev) = some server :=
      Server.exists_step hc (hs.closed hgone c hc)
    exact ⟨.server (.handler c ev), { s with server }, rfl, by simp [step, allows, hstep]⟩
  · exact hloop (by simpa using (Bool.and_eq_true_iff.mp hhealthy).1)
  · cases hphase : s.shutdown with
    | notCalled => exact absurd hphase hcalled
    | cancelled => exact ⟨.shutdown, _, rfl, by simp only [step, shutdownStep, hphase]; rfl⟩
    | endpointClosed =>
        by_cases haccept : s.acceptFinished = true
        · exact ⟨.shutdown, { s with shutdown := .acceptJoined }, rfl,
            by simp only [step, shutdownStep, hphase, haccept, if_true]⟩
        · exact hloop (Bool.eq_false_iff.mpr haccept)
    | acceptJoined =>
        by_cases hpublic : s.publicFinished = some false
        · exact ⟨.publicLoopEnds, { s with publicFinished := some true }, rfl,
            by simp [step, hs.cancelled hcalled, hpublic]⟩
        · exact ⟨.shutdown, { s with shutdown := .publicJoined }, rfl,
            by simp only [step, shutdownStep, hphase, hpublic, if_false]⟩
    | publicJoined =>
        exact ⟨.shutdown, { s with shutdown := .returned }, rfl, by simp only [step, shutdownStep, hphase]⟩
    | returned => exact absurd hphase hnot

/-- Nothing is left when no handler runs. -/
theorem drained (hs : Inv cfg s) (hdone : ∀ c, ¬ s.server.Running c) :
    s.server.routes.inner = ∅ ∧ s.server.control.tunnels = ∅ := by
  constructor
  · refine AList.ext (List.eq_nil_iff_forall_not_mem.mpr fun ⟨host, e⟩ hmem => ?_)
    have he := AList.mem_lookup_iff.mpr hmem
    obtain ⟨c, hc⟩ := List.exists_mem_of_ne_nil _ (hs.nonempty host e he)
    obtain ⟨ph, g, hph, hg, -⟩ := hs.server.routed ⟨e, he, rfl, hc⟩
    exact hdone c (Server.running_of_routed hph hg)
  · refine AList.ext (List.eq_nil_iff_forall_not_mem.mpr fun ⟨i, info⟩ hmem => ?_)
    obtain ⟨c, g, -, hreg, -⟩ := (hs.server.listed i info).mp (AList.mem_lookup_iff.mpr hmem)
    obtain ⟨ph, hph, hg⟩ := Server.registeredAs_eq_some.mp hreg
    exact hdone c (Server.running_of_registered hph hg)

/-- **A server whose endpoint is closed or lost comes to an end**, whatever its peers do.  Handlers, accept loops
and a `shutdown` that was called take a bounded number of steps, and have one as long as they are not finished;
the accept loop is no longer healthy then.  When no handler is left there are only the hosts of local upstreams,
no tunnel is registered, and every tunnel that came up was announced to be down. -/
theorem shutdown_drains {publicListenAddr : Option SocketAddr} {steps later : List Step}
    (h : Runs.run (step backend) steps (start cfg publicListenAddr) = some s) (hgone : s.endpointGone = true)
    (h' : Runs.run (step backend) later s = some s') :
    later.countP Step.isOwn ≤ 10 * s.server.running.length + 6 ∧
    ((∃ c, s'.server.Running c) ∨ s'.healthy = true ∨ s'.shutdown ≠ .notCalled ∧ s'.shutdown ≠ .returned →
      ∃ t s'', t.isOwn = true ∧ step backend s' t = some s'') ∧
    ((∀ c, ¬ s'.server.Running c) →
      s'.server.routes.activeHostnames = (fromConfig cfg.hostnames cfg.upstreams).activeHostnames ∧
      Observed.tunnels s'.server = [] ∧
      ((s'.server.control.events.filter fun e => e.isUp).map ControlEvent.key).Perm
        ((s'.server.control.events.filter fun e => !e.isUp).map ControlEvent.key)) := by
  have hinv : Inv cfg s' := Runs.run_invariant (inv_run h) (fun _ _ _ hs h => inv_step hs h) h'
  have hgone' : s'.endpointGone = true :=
    Runs.run_invariant (P := fun s => s.endpointGone = true) hgone
      (fun _ _ _ hgone hstep => (work_step hgone hstep).1) h'
  refine ⟨?_, exists_own_step hinv hgone', fun hdone => ?_⟩
  · have hcount : later.countP Step.isOwn + s'.work ≤ s.work :=
      Runs.countP_add_le (fun _ _ _ hgone hstep => work_step hgone hstep) hgone h'
    have hwork := s.work_le
    omega
  · obtain ⟨hinner, htunnels⟩ := drained hinv hdone
    refine ⟨?_, ?_, ?_⟩
    · rw [activeHostnames, activeHostnames, hinner, hinv.locals]
      rfl
    · rw [Observed.tunnels, htunnels]
      rfl
    · have hbalanced := hinv.balanced
      rw [Observed.Balanced, htunnels] at hbalanced
      simpa [AssocMap.values] using hbalanced

/-- A tunnel is up and another one just accepted when the server is shut down. -/
def stopped : List Step :=
  let g : ClientGrant := ⟨['a'], .roundRobin, [(['x'], .passthrough)]⟩
  (Server.comeUp (.nth 0) ⟨Vector.replicate 32 0, []⟩ g ++ Server.welcome (.nth 0) ++
    [Action.accept (.nth 1)]).map .server ++ [.callShutdown, .shutdown]

theorem shutdown_drains_stopped :
    ∃ s s', Runs.run (step fun _ _ => true) stopped (start {} none) = some s ∧
      Runs.run (step fun _ _ => true) ([.server (.handler (.nth 1) .streamTimeout), .acceptLoopEnds] ++
        (Server.tearDown (.nth 0)).map .server) s = some s' ∧ Observed.tunnels s'.server = [] := by
  have hrun : (Runs.run (step fun _ _ => true) stopped (start {} none)).any (fun s => s.endpointGone &&
      (Runs.run (step fun _ _ => true) ([.server (.handler (.nth 1) .streamTimeout), .acceptLoopEnds] ++
        (Server.tearDown (.nth 0)).map .server) s).any fun s' => s'.server.running = []) = true := by
    decide +kernel
  obtain ⟨s, hs, hrest⟩ := (Option.any_eq_true _ _).mp hrun
  obtain ⟨hgone, hrest⟩ := Bool.and_eq_true_iff.mp hrest
  obtain ⟨s', hs', hdone⟩ := (Option.any_eq_true _ _).mp hrest
  refine ⟨s, s', hs, hs', ((shutdown_drains hs hgone hs').2.2 fun c hc => ?_).2.1⟩
  have hmem := Server.mem_running.mpr hc
  rw [of_decide_eq_true hdone] at hmem
  cases hmem

end Lifecycle

end Tuyau
