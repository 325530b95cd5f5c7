import Tuyau.Server

/-! # Routes agree with live tunnels

`Inv` is what every run of the server keeps: handlers that are running have distinct stable ids, the
table read as leases agrees with the grants of the handlers between `install` and `remove_conn`, the
registry lists exactly the handlers between `register` and `unregister`, and a handler only leaves
its wait when its connection is closed.

The agreement is not argued step by step: `ledger` reads a server as the abstract ledger of
`Leases`, with the connections closed as displaced or kicked as the reported members, and
`ledger_step` shows that every step of the server is a move of that ledger or leaves it alone.

`routes_agree` is the result about whole runs: whoever is in the table was granted the host, has
passed `install` and is not finished; whoever was welcomed, has not cleaned up and was not evicted
is in the table at every granted host; and nobody is left in the table or the registry once its
handler is finished. -/

namespace Tuyau

open AsciiText RoutingTable

namespace Server

variable {backend : Token → Option ClientGrant → Bool} {s s' : Server} {c d : Connection}

/-! ### The ledger of a server -/

/-- What a grant promises: its hosts, in the name of its client. -/
def promise (g : ClientGrant) : Set Text × Text := ({h | h ∈ g.hosts}, g.clientName)

/-- What the handler of `c` has installed and not yet removed. -/
def promised (s : Server) (c : Connection) : Option (Set Text × Text) :=
  ((s.handlers.lookup c).bind Phase.routed).map promise

/-- The server closed `c` as displaced or kicked. -/
def Evicted (s : Server) (c : Connection) : Prop := ∃ cause, (c, cause) ∈ s.closes ∧ cause.evicts = true

/-- The server as leases of hosts to connections. -/
def ledger (s : Server) : Leases.Ledger Text Text Connection :=
  ⟨serving s.routes.inner, s.promised, {c | s.Evicted c}⟩

theorem promised_eq_some {K : Set Text} {n : Text} :
    s.promised c = some (K, n) ↔
      ∃ ph g, s.handlers.lookup c = some ph ∧ ph.routed = some g ∧ promise g = (K, n) := by
  simp only [promised, Option.map_eq_some_iff, Option.bind_eq_some_iff]
  constructor
  · rintro ⟨g, ⟨ph, hph, hg⟩, hp⟩
    exact ⟨ph, g, hph, hg, hp⟩
  · rintro ⟨ph, g, hph, hg, hp⟩
    exact ⟨g, ⟨ph, hph, hg⟩, hp⟩

theorem promised_advance {ph : Phase} :
    (s.advance c ph).promised = Function.update s.promised c (ph.routed.map promise) := by
  funext d
  by_cases hd : d = c
  · subst hd
    simp [promised]
  · rw [Function.update_of_ne hd]
    simp [promised, hd]

theorem promised_perform {eff : Effect} : (s.perform c eff).promised = s.promised := by
  funext d
  simp [promised]

/-- A step of a handler that neither installs nor removes promises what it did before. -/
theorem promised_advance_same {ph ph' : Phase} (hph : s.handlers.lookup c = some ph)
    (hr : ph'.routed = ph.routed) : (s.advance c ph').promised = s.promised := by
  rw [promised_advance]
  refine Function.update_eq_self_iff.mpr ?_
  simp [promised, hph, hr]

/-- Adding closes that evict the members of a list. -/
theorem evicted_append {closes : List (Connection × CloseCause)} {l : List Connection}
    {cause : CloseCause} (hcause : cause.evicts = true) :
    (∃ x, (c, x) ∈ closes ++ l.map (fun d => (d, cause)) ∧ x.evicts = true) ↔
      (∃ x, (c, x) ∈ closes ∧ x.evicts = true) ∨ c ∈ l := by
  simp only [List.mem_append, List.mem_map, Prod.mk.injEq]
  constructor
  · rintro ⟨x, hx | ⟨d, hd, rfl, -⟩, he⟩
    · exact .inl ⟨x, hx, he⟩
    · exact .inr hd
  · rintro (⟨x, hx, he⟩ | hc)
    · exact ⟨x, .inl hx, he⟩
    · exact ⟨cause, .inr ⟨c, hc, rfl, rfl⟩, hcause⟩

/-! ### The invariant -/

/-- The grant under which the handler of `c` is registered. -/
def registeredAs (s : Server) (c : Connection) : Option ClientGrant :=
  (s.handlers.lookup c).bind Phase.registered

theorem registeredAs_eq_some {g : ClientGrant} :
    s.registeredAs c = some g ↔ ∃ ph, s.handlers.lookup c = some ph ∧ ph.registered = some g :=
  Option.bind_eq_some_iff

/-- The registry lists exactly the registered handlers. -/
def Listed (s : Server) : Prop :=
  ∀ i info, s.control.tunnels.lookup i = some info ↔
    ∃ c g, c.stableId = i ∧ s.registeredAs c = some g ∧ info = c.info g

/-- What every reachable server has. -/
structure Inv (s : Server) : Prop where
  distinct : ∀ c d, s.Running c → s.Running d → c.stableId = d.stableId → c = d
  agrees : Leases.Agrees s.ledger
  listed : s.Listed
  afterClose : ∀ c ph, s.handlers.lookup c = some ph → ph.afterClose = true → s.closed c = true

theorem running_of_routed {ph : Phase} {g : ClientGrant} (hph : s.handlers.lookup c = some ph)
    (hg : ph.routed = some g) : s.Running c := by
  refine ⟨ph, hph, ?_⟩
  rintro rfl
  cases hg

theorem running_of_registered {ph : Phase} {g : ClientGrant} (hph : s.handlers.lookup c = some ph)
    (hg : ph.registered = some g) : s.Running c := by
  refine ⟨ph, hph, ?_⟩
  rintro rfl
  cases hg

/-- A served host was granted to a handler that is past `install` and before `remove_conn`. -/
theorem Inv.routed (hs : Inv s) {h n : Text} (hc : (h, n, c) ∈ serving s.routes.inner) :
    ∃ ph g, s.handlers.lookup c = some ph ∧ ph.routed = some g ∧ h ∈ g.hosts ∧ g.clientName = n := by
  obtain ⟨K, hK, hh⟩ := hs.agrees.covered h n c hc
  obtain ⟨ph, g, hph, hg, hp⟩ := promised_eq_some.mp hK
  obtain ⟨rfl, rfl⟩ := Prod.mk.inj hp
  exact ⟨ph, g, hph, hg, hh, rfl⟩

/-- A stable id in the table tells its connection. -/
theorem Inv.sole (hs : Inv s) (hc : s.Running c) (x : Text × Text × Connection)
    (hx : x ∈ serving s.routes.inner) (hid : x.2.2.stableId = c.stableId) : x.2.2 = c := by
  obtain ⟨ph, g, hph, hg, -⟩ := hs.routed hx
  exact hs.distinct _ _ (running_of_routed hph hg) hc hid

theorem Inv.inj (hs : Inv s) (x : Text × Text × Connection) (hx : x ∈ serving s.routes.inner)
    (y : Text × Text × Connection) (hy : y ∈ serving s.routes.inner)
    (hid : x.2.2.stableId = y.2.2.stableId) : x.2.2 = y.2.2 := by
  obtain ⟨ph, g, hph, hg, -⟩ := hs.routed hy
  exact hs.sole (running_of_routed hph hg) x hx hid

/-- A connection about to be installed is new to the table. -/
theorem Inv.fresh (hs : Inv s) {g : ClientGrant} (hph : s.handlers.lookup c = some (.installing g)) :
    ∀ x ∈ serving s.routes.inner, x.2.2.stableId ≠ c.stableId := by
  intro x hx hid
  have hrun : s.Running c := ⟨_, hph, by simp⟩
  obtain ⟨ph, g', hph', hg', -⟩ := hs.routed hx
  rw [hs.sole hrun x hx hid, hph] at hph'
  obtain rfl := Option.some.inj hph'
  cases hg'

/-! ### Every step is a move of the ledger -/

/-- A step of a handler, as a move of the ledger. -/
theorem ledger_handler {ph ph' : Phase} {ev : Event} {eff : Effect} (hs : Inv s)
    (hph : s.handlers.lookup c = some ph) (htr : transition ph ev = some (ph', eff)) :
    ((s.advance c ph').perform c eff).ledger = s.ledger ∨
      ∃ m, Leases.move s.ledger m = some ((s.advance c ph').perform c eff).ledger := by
  have heff := transition_effect htr
  cases eff with
  | install g =>
      obtain ⟨rfl, rfl, -⟩ := heff
      obtain ⟨hserv, hdis⟩ := serving_install (hs.fresh hph) (g := g)
      refine .inr ⟨.acquire c {h | h ∈ g.hosts} g.clientName (g.balance = .roundRobin), ?_⟩
      have hnone : s.ledger.grant c = none := by simp [ledger, promised, hph, Phase.routed]
      simp only [Leases.move, hnone, Option.some.injEq]
      refine Leases.Ledger.ext hserv.symm ?_ ?_
      · exact (promised_perform.trans (@promised_advance s c (.welcoming g))).symm
      · ext d
        rw [Set.mem_union]
        exact ((evicted_append rfl).trans (or_congr_right (hdis d))).symm
  | removeConn =>
      have hnone : ph'.routed = none := by
        obtain ⟨-, g, ⟨-, rfl⟩ | ⟨-, rfl⟩⟩ := heff <;> rfl
      have hrun : s.Running c := by
        obtain ⟨-, g, ⟨rfl, -⟩ | ⟨rfl, -⟩⟩ := heff <;> exact ⟨_, hph, by simp⟩
      refine .inr ⟨.release c, congrArg some (Leases.Ledger.ext ?_ ?_ rfl)⟩
      · exact (serving_removeConn (hs.sole hrun)).symm
      · exact (promised_perform.trans (promised_advance.trans (by rw [hnone]; rfl))).symm
  | unregister =>
      obtain ⟨g, rfl, rfl⟩ := heff
      exact .inl (Leases.Ledger.ext rfl (promised_advance_same hph rfl) rfl)
  | register g =>
      obtain ⟨rfl, rfl⟩ := heff
      exact .inl (Leases.Ledger.ext rfl (promised_advance_same hph rfl) rfl)
  | close cause =>
      obtain ⟨hr, -, hcause⟩ := heff
      refine .inl (Leases.Ledger.ext rfl (promised_advance_same hph hr) ?_)
      ext d
      simp only [ledger, Evicted, perform, advance, Set.mem_ofPred_eq, List.mem_append,
        List.mem_singleton, Prod.mk.injEq]
      constructor
      · rintro ⟨x, hx | ⟨-, rfl⟩, he⟩
        · exact ⟨x, hx, he⟩
        · rw [hcause] at he
          cases he
      · rintro ⟨x, hx, he⟩
        exact ⟨x, .inl hx, he⟩
  | respond response => exact .inl (Leases.Ledger.ext rfl (promised_advance_same hph heff.1) rfl)
  | none => exact .inl (Leases.Ledger.ext rfl (promised_advance_same hph heff.1) rfl)

/-- **Refinement**: a step of the server is a move of the ledger or leaves it alone. -/
theorem ledger_step {a : Action} (hs : Inv s) (h : step backend s a = some s') :
    s'.ledger = s.ledger ∨ ∃ m, Leases.move s.ledger m = some s'.ledger := by
  cases a with
  | accept c =>
      obtain ⟨hacc, rfl⟩ := step_accept h
      refine .inl (Leases.Ledger.ext rfl (promised_advance.trans ?_) rfl)
      refine Function.update_eq_self_iff.mpr ?_
      simp [promised, hacc.1, Phase.routed]
  | handler c ev =>
      obtain ⟨ph, ph', eff, hph, -, htr, rfl⟩ := step_handler h
      exact ledger_handler hs hph htr
  | kick n =>
      obtain rfl := Option.some.inj h
      refine .inr ⟨.revoke n, congrArg some (Leases.Ledger.ext serving_kick.symm rfl ?_)⟩
      ext d
      rw [Set.mem_union]
      exact ((evicted_append rfl).trans (or_congr_right (mem_kick hs.inj))).symm
  | lookup host =>
      obtain rfl := Option.some.inj h
      exact .inl (Leases.Ledger.ext serving_lookup rfl rfl)
  | _ =>
      obtain rfl := Option.some.inj h
      exact .inl rfl

/-! ### The rest of the invariant -/

theorem Acceptable.ne (hacc : s.Acceptable c) (hd : s.Running d) : d.stableId ≠ c.stableId := by
  obtain ⟨ph, hph, hne⟩ := hd
  exact hacc.2 ⟨d, ph⟩ (AList.mem_lookup_iff.mp hph) hne

/-- A handler runs on until it is finished, and starts by being accepted. -/
theorem running_step {a : Action} (h : step backend s a = some s') (hd : s'.Running d) :
    a = .accept d ∨ s.Running d := by
  rcases step_phase h d with ⟨ev, ph, ph', eff, -, hph, -, htr, -, -⟩ | ⟨hacc, -, -⟩ | ⟨-, -, hsame⟩
  · refine .inr ⟨ph, hph, ?_⟩
    rintro rfl
    cases htr
  · exact .inl hacc
  · obtain ⟨ph, hph, hne⟩ := hd
    rw [hsame] at hph
    exact .inr ⟨ph, hph, hne⟩

theorem distinct_step {a : Action} (hs : Inv s) (h : step backend s a = some s') :
    ∀ c d, s'.Running c → s'.Running d → c.stableId = d.stableId → c = d := by
  intro c d hc hd hid
  rcases running_step h hc with rfl | hc'
  · rcases running_step h hd with hacc | hd'
    · cases hacc
      rfl
    · exact absurd hid.symm ((step_accept h).1.ne hd')
  · rcases running_step h hd with rfl | hd'
    · exact absurd hid ((step_accept h).1.ne hc')
    · exact hs.distinct c d hc' hd' hid

theorem closed_step {a : Action} (h : step backend s a = some s') (hc : s.closed c = true) :
    s'.closed c = true := by
  simp only [closed, Bool.or_eq_true, decide_eq_true_eq] at hc ⊢
  have hgrow : s.peerClosed ⊆ s'.peerClosed ∧ s.closes ⊆ s'.closes := by
    cases a with
    | accept d =>
        obtain ⟨-, rfl⟩ := step_accept h
        exact ⟨fun _ hx => hx, fun _ hx => hx⟩
    | peerClose d =>
        obtain rfl := Option.some.inj h
        exact ⟨List.subset_cons_self _ _, fun _ hx => hx⟩
    | handler d ev =>
        obtain ⟨ph, ph', eff, -, -, -, rfl⟩ := step_handler h
        cases eff with
        | install g => exact ⟨fun _ hx => hx, List.subset_append_left _ _⟩
        | close cause => exact ⟨fun _ hx => hx, List.subset_append_left _ _⟩
        | _ => exact ⟨fun _ hx => hx, fun _ hx => hx⟩
    | kick n =>
        obtain rfl := Option.some.inj h
        exact ⟨fun _ hx => hx, List.subset_append_left _ _⟩
    | _ =>
        obtain rfl := Option.some.inj h
        exact ⟨fun _ hx => hx, fun _ hx => hx⟩
  exact hc.imp (fun hp => hgrow.1 hp) (fun hp => List.map_subset _ hgrow.2 hp)

theorem afterClose_step {a : Action} (hs : Inv s) (h : step backend s a = some s') :
    ∀ c ph, s'.handlers.lookup c = some ph → ph.afterClose = true → s'.closed c = true := by
  intro c ph' hph' hafter
  rcases step_phase h c with ⟨ev, ph, ph₁, eff, rfl, hph, hocc, htr, rfl, hph₁⟩ | ⟨-, -, hph₁⟩ |
    ⟨-, -, hsame⟩
  · rw [hph₁] at hph'
    obtain rfl := Option.some.inj hph'
    have heff := transition_effect htr
    cases eff with
    | none =>
        obtain rfl := heff.2.2 hafter
        exact closed_step h hocc
    | respond response =>
        rw [heff.2.2.1] at hafter
        cases hafter
    | close cause => simp [perform, closed]
    | removeConn =>
        obtain ⟨-, g, ⟨rfl, rfl⟩ | ⟨rfl, rfl⟩⟩ := heff
        · exact closed_step h (hs.afterClose c _ hph rfl)
        · cases hafter
    | install g =>
        obtain ⟨rfl, rfl, -⟩ := heff
        cases hafter
    | register g =>
        obtain ⟨rfl, rfl⟩ := heff
        cases hafter
    | unregister =>
        obtain ⟨g, rfl, rfl⟩ := heff
        cases hafter
  · rw [hph₁] at hph'
    obtain rfl := Option.some.inj hph'
    cases hafter
  · rw [hsame] at hph'
    exact closed_step h (hs.afterClose c ph' hph' hafter)

theorem registeredAs_advance {ph : Phase} :
    (s.advance c ph).registeredAs = Function.update s.registeredAs c ph.registered := by
  funext d
  by_cases hd : d = c
  · subst hd
    simp [registeredAs]
  · rw [Function.update_of_ne hd]
    simp [registeredAs, hd]

theorem registeredAs_perform {eff : Effect} : (s.perform c eff).registeredAs = s.registeredAs := by
  funext d
  simp [registeredAs]

/-- Registry and handlers change together at one running connection. -/
theorem listed_update (hdist : ∀ c d, s.Running c → s.Running d → c.stableId = d.stableId → c = d)
    (hs : s.Listed) (hc : s.Running c) {o : Option ClientGrant}
    (hreg : s'.registeredAs = Function.update s.registeredAs c o)
    (htun : ∀ i, s'.control.tunnels.lookup i =
      if i = c.stableId then o.map c.info else s.control.tunnels.lookup i) : s'.Listed := by
  intro i info
  rw [htun, hreg]
  split_ifs with hi
  · subst hi
    constructor
    · intro ho
      obtain ⟨g, rfl, rfl⟩ := Option.map_eq_some_iff.mp ho
      exact ⟨c, g, rfl, Function.update_self .., rfl⟩
    · rintro ⟨d, g, hid, hd, rfl⟩
      by_cases hdc : d = c
      · subst hdc
        rw [Function.update_self] at hd
        rw [hd]
        rfl
      · rw [Function.update_of_ne hdc] at hd
        obtain ⟨ph, hph, hg⟩ := registeredAs_eq_some.mp hd
        exact absurd (hdist d c (running_of_registered hph hg) hc hid) hdc
  · rw [hs]
    have hne : ∀ d : Connection, d.stableId = i → d ≠ c := by
      rintro d rfl rfl
      exact hi rfl
    constructor
    · rintro ⟨d, g, hid, hd, hinfo⟩
      exact ⟨d, g, hid, (Function.update_of_ne (hne d hid) ..).trans hd, hinfo⟩
    · rintro ⟨d, g, hid, hd, hinfo⟩
      rw [Function.update_of_ne (hne d hid)] at hd
      exact ⟨d, g, hid, hd, hinfo⟩

theorem listed_same (hs : s.Listed) (hreg : s'.registeredAs = s.registeredAs)
    (hctl : s'.control = s.control) : s'.Listed := by
  intro i info
  rw [hctl, hreg]
  exact hs i info

theorem listed_step {a : Action} (hs : Inv s) (h : step backend s a = some s') : s'.Listed := by
  cases a with
  | accept c =>
      obtain ⟨hacc, rfl⟩ := step_accept h
      refine listed_same hs.listed (registeredAs_advance.trans ?_) rfl
      refine Function.update_eq_self_iff.mpr ?_
      simp [registeredAs, hacc.1, Phase.registered]
  | handler c ev =>
      obtain ⟨ph, ph', eff, hph, -, htr, rfl⟩ := step_handler h
      have hreg : ((s.advance c ph').perform c eff).registeredAs =
          Function.update s.registeredAs c ph'.registered :=
        registeredAs_perform.trans registeredAs_advance
      have hsame : ph'.registered = ph.registered →
          ((s.advance c ph').perform c eff).registeredAs = s.registeredAs := fun hr =>
        hreg.trans (Function.update_eq_self_iff.mpr (by simp [registeredAs, hph, hr]))
      have heff := transition_effect htr
      cases eff with
      | register g =>
          obtain ⟨rfl, rfl⟩ := heff
          exact listed_update hs.distinct hs.listed ⟨_, hph, by simp⟩ hreg
            (fun i => Control.lookup_register ..)
      | unregister =>
          obtain ⟨g, rfl, rfl⟩ := heff
          exact listed_update hs.distinct hs.listed ⟨_, hph, by simp⟩ hreg
            (fun i => Control.lookup_unregister ..)
      | install g =>
          obtain ⟨rfl, rfl, -⟩ := heff
          exact listed_same hs.listed (hsame rfl) rfl
      | removeConn =>
          have hr : ph'.registered = ph.registered := by
            obtain ⟨-, g, ⟨rfl, rfl⟩ | ⟨rfl, rfl⟩⟩ := heff <;> rfl
          exact listed_same hs.listed (hsame hr) rfl
      | close cause => exact listed_same hs.listed (hsame heff.2.1) rfl
      | respond response => exact listed_same hs.listed (hsame heff.2.1) rfl
      | none => exact listed_same hs.listed (hsame heff.2.1) rfl
  | _ =>
      obtain rfl := Option.some.inj h
      exact hs.listed

theorem inv_start (cfg : ServerConfig) : Inv (start cfg) where
  distinct c d hc := by
    obtain ⟨ph, hph, -⟩ := hc
    cases hph
  agrees := by
    have hempty : (start cfg).ledger = ⟨∅, fun _ => none, ∅⟩ :=
      Leases.Ledger.ext serving_empty rfl (by simp [ledger, Evicted, start])
    rw [hempty]
    exact Leases.agrees_empty
  listed i info := by
    constructor
    · intro h
      cases h
    · rintro ⟨c, g, -, h, -⟩
      cases h
  afterClose c ph hph := by cases hph

theorem inv_step {a : Action} (hs : Inv s) (h : step backend s a = some s') : Inv s' where
  distinct := distinct_step hs h
  agrees := by
    rcases ledger_step hs h with heq | ⟨m, hm⟩
    · rw [heq]
      exact hs.agrees
    · exact Leases.agrees_of_move hs.agrees hm
  listed := listed_step hs h
  afterClose := afterClose_step hs h

theorem inv_run {cfg : ServerConfig} {as : List Action}
    (hrun : Runs.run (step backend) as (start cfg) = some s) : Inv s :=
  Runs.run_invariant (inv_start cfg) (fun _ _ _ hs h => inv_step hs h) hrun

/-- A step of the server performs at most one operation on the routing table; it installs only what a
handler is about to install, and replaces the terminated hosts only when told to. -/
theorem routes_step {a : Action} (hs : Inv s) (h : step backend s a = some s') :
    s'.routes = s.routes ∨ ∃ op, s.routes.step op = some s'.routes ∧
      (∀ g c, op = .install g c → s.handlers.lookup c = some (.installing g)) ∧
      ∀ full, op = .setTerminated full → a = .setTerminatedDomains full := by
  cases a with
  | accept c =>
      obtain ⟨-, rfl⟩ := step_accept h
      exact .inl rfl
  | handler c ev =>
      obtain ⟨ph, ph', eff, hph, -, htr, rfl⟩ := step_handler h
      have heff := transition_effect htr
      cases eff with
      | install g =>
          obtain ⟨rfl, rfl, rfl⟩ := heff
          refine .inr ⟨.install g c, ?_, ?_, by simp⟩
          · have hfresh : ¬ s.routes.Holds c := by
              rw [holds_iff_serving]
              rintro ⟨h, n, hx⟩
              exact hs.fresh hph _ hx rfl
            simp only [RoutingTable.step, if_neg hfresh]
            rfl
          · rintro g' c' hop
            cases hop
            exact hph
      | removeConn => exact .inr ⟨.removeConn c.stableId, rfl, by simp, by simp⟩
      | _ => exact .inl rfl
  | kick n =>
      obtain rfl := Option.some.inj h
      exact .inr ⟨.kick n, rfl, by simp, by simp⟩
  | setTerminatedDomains domains =>
      obtain rfl := Option.some.inj h
      refine .inr ⟨.setTerminated domains, rfl, by simp, ?_⟩
      rintro full hop
      cases hop
      rfl
  | lookup host =>
      obtain rfl := Option.some.inj h
      exact .inr ⟨.lookup _ host, rfl, by simp, by simp⟩
  | _ =>
      obtain rfl := Option.some.inj h
      exact .inl rfl

/-! ### Whole runs -/

/-- A handler that answered Welcome met the event of sending it. -/
theorem welcomeSent_of_response {cfg : ServerConfig} {as : List Action}
    (hrun : Runs.run (step backend) as (start cfg) = some s) :
    ∀ c, (c, HelloResponse.welcome) ∈ s.responses → .handler c .welcomeSent ∈ as := by
  refine Runs.run_history
    (P := fun as s => ∀ c, (c, HelloResponse.welcome) ∈ s.responses → .handler c .welcomeSent ∈ as)
    (fun c hc => by cases hc) ?_ hrun
  intro as s a s' _ hs h c hc
  have hold : (c, HelloResponse.welcome) ∈ s.responses → .handler c .welcomeSent ∈ as ++ [a] :=
    fun hin => List.mem_append_left _ (hs c hin)
  cases a with
  | accept d =>
      obtain ⟨-, rfl⟩ := step_accept h
      exact hold hc
  | handler d ev =>
      obtain ⟨ph, ph', eff, -, -, htr, rfl⟩ := step_handler h
      have heff := transition_effect htr
      cases eff with
      | respond response =>
          rcases List.mem_append.mp hc with hin | hin
          · exact hold hin
          · obtain ⟨rfl, hw⟩ := Prod.mk.inj (List.mem_singleton.mp hin)
            obtain rfl := heff.2.2.2 hw.symm
            simp
      | _ => exact hold hc
  | _ =>
      obtain rfl := Option.some.inj h
      exact hold hc

/-- The routing table and the registry fit the history of every connection. -/
structure RoutesAgree (as : List Action) (s : Server) : Prop where
  installed : ∀ c h e, s.routes.inner.lookup h = some e → c ∈ e.conns →
    ∃ g, .handler c (.admitted (some g)) ∈ as ∧ h ∈ g.hosts ∧ g.clientName = e.clientName ∧
      .handler c .install ∈ as ∧ s.Running c
  kept : ∀ c, (c, .welcome) ∈ s.responses → .handler c .removeConn ∉ as → ¬ s.Evicted c →
    ∃ g, .handler c (.admitted (some g)) ∈ as ∧ (∀ g', .handler c (.admitted (some g')) ∈ as → g' = g) ∧
      ∀ h ∈ g.hosts, ∃ e, s.routes.inner.lookup h = some e ∧ e.clientName = g.clientName ∧ c ∈ e.conns
  finished : ∀ c, s.handlers.lookup c = some .done →
    (∀ h e, s.routes.inner.lookup h = some e → c ∉ e.conns) ∧
      ∀ info, s.control.tunnels.lookup c.stableId = some info →
        ∃ d g, d ≠ c ∧ d.stableId = c.stableId ∧ s.Running d ∧ .handler d (.admitted (some g)) ∈ as ∧
          info = d.info g

/-- **Routes agree with live admitted tunnels**, at every point of every interleaving. -/
theorem routes_agree {cfg : ServerConfig} {as : List Action}
    (hrun : Runs.run (step backend) as (start cfg) = some s) : RoutesAgree as s where
  installed c h e he hc := by
    obtain ⟨ph, g, hph, hg, hh, hn⟩ := (inv_run hrun).routed ⟨e, he, rfl, hc⟩
    have hp := (tracked_run hrun).passed hph
    exact ⟨g, mem_eventsOf.mp (hp.admitted g (Phase.grant_of_routed hg)), hh, hn,
      mem_eventsOf.mp (hp.installed (by simp [hg])), running_of_routed hph hg⟩
  kept c hw hr hev := by
    have hsent := welcomeSent_of_response hrun c hw
    obtain ⟨ph, hph, hp⟩ := (tracked_run hrun).exists_phase hsent
    obtain ⟨g, hg⟩ := Option.isSome_iff_exists.mp
      (hp.welcomed (mem_eventsOf.mpr hsent) (fun hin => hr (mem_eventsOf.mp hin)))
    refine ⟨g, mem_eventsOf.mp (hp.admitted g (Phase.grant_of_routed hg)), ?_, ?_⟩
    · intro g' hg'
      rcases hp.admittedOnce g' (mem_eventsOf.mpr hg') with hgr | rfl
      · rw [Phase.grant_of_routed hg] at hgr
        exact (Option.some.inj hgr).symm
      · cases hg
    · exact (inv_run hrun).agrees.kept c {h | h ∈ g.hosts} g.clientName
        (promised_eq_some.mpr ⟨ph, g, hph, hg, rfl⟩) hev
  finished c hdone := by
    have hs := inv_run hrun
    constructor
    · intro h e he hc
      obtain ⟨ph, g, hph, hg, -⟩ := hs.routed ⟨e, he, rfl, hc⟩
      rw [hdone] at hph
      obtain rfl := Option.some.inj hph
      cases hg
    · intro info hinfo
      obtain ⟨d, g, hid, hreg, rfl⟩ := (hs.listed _ _).mp hinfo
      obtain ⟨ph, hph, hg⟩ := registeredAs_eq_some.mp hreg
      refine ⟨d, g, ?_, hid, running_of_registered hph hg, ?_, rfl⟩
      · rintro rfl
        rw [hdone] at hph
        obtain rfl := Option.some.inj hph
        cases hg
      · exact mem_eventsOf.mp (((tracked_run hrun).passed hph).admitted g
          (Phase.grant_of_registered hg))

/-- A client reconnects, and the old tunnel cleans up only after the new one was welcomed; then the
stable id of the old connection is used again. -/
def reconnect : List Action :=
  let g : ClientGrant := ⟨['a'], .lastWriteWins, [(['x'], .terminated)]⟩
  let hello : Hello := ⟨Vector.replicate 32 0, ['a']⟩
  comeUp (.nth 0) hello g ++ welcome (.nth 0) ++ comeUp (.nth 1) hello g ++ welcome (.nth 1) ++
    tearDown (.nth 0) ++ [.accept ⟨2, 0, .v4 192 0 2 1 4434⟩]

theorem routes_agree_reconnect :
    ∃ s, Runs.run (step fun _ _ => true) reconnect (start {}) = some s ∧ RoutesAgree reconnect s := by
  have hrun : (Runs.run (step fun _ _ => true) reconnect (start {})).isSome = true := by decide
  obtain ⟨s, hs⟩ := Option.isSome_iff_exists.mp hrun
  exact ⟨s, hs, routes_agree hs⟩

end Server

end Tuyau
