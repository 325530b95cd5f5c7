import Tuyau.Agreement

/-! # Which tunnel last-write-wins keeps

Under last-write-wins a client that reconnects should end up with its newest tunnel.  The order that
counts for the table is the order of the `install` steps, and between a Hello and its `install` stands
the answer of the backend, which may take any time.

`Rivals` are two connections of one client, the second of which sent its Hello after that of the first
was received.  `newest_kept_iff` says of the moment in which both have passed `install` that the newer
tunnel holds the host, and from then on is not closed for the older one, exactly when the older one was
installed first.  The check of the close reason before `install` does not help: the older connection is open, and
not in the table, so nothing has closed it. -/

namespace Tuyau

open AsciiText RoutingTable

namespace Server

variable {backend : Token → Option ClientGrant → Bool} {cfg : ServerConfig} {as : List Action}
  {s s' : Server} {c c₁ c₂ : Connection} {h : Text}

/-- What the `install` step of a handler is. -/
theorem step_install (hstep : step backend s (.handler c .install) = some s') :
    ∃ g, s.handlers.lookup c = some (.installing g) ∧ s'.handlers.lookup c = some (.welcoming g) ∧
      s'.routes = (s.routes.install g.hostnames g.clientName g.balance c).2 := by
  obtain ⟨ph, ph', eff, hph, -, htr, rfl⟩ := step_handler hstep
  cases ph with
  | installing g =>
      obtain ⟨rfl, rfl⟩ := Prod.mk.inj (Option.some.inj htr)
      exact ⟨g, hph, by simp, rfl⟩
  | _ => cases htr

/-- A handler that is about to install has not installed before. -/
theorem not_installed {g : ClientGrant} (hrun : Runs.run (step backend) as (start cfg) = some s)
    (hph : s.handlers.lookup c = some (.installing g)) : .handler c .install ∉ as := by
  intro hin
  have hpast := ((tracked_run hrun).passed hph).installedOnce (mem_eventsOf.mpr hin)
  cases hpast

/-- The grant a handler is about to install is the one it was admitted with. -/
theorem grant_of_installing {g g' : ClientGrant}
    (hrun : Runs.run (step backend) as (start cfg) = some s)
    (hph : s.handlers.lookup c = some (.installing g))
    (hin : .handler c (.admitted (some g')) ∈ as) : g = g' := by
  have hp := (tracked_run hrun).passed hph
  rcases hp.admittedOnce g' (mem_eventsOf.mpr hin) with hg | hdone
  · exact Option.some.inj hg
  · cases hdone

/-- The server evicts only connections that have been installed. -/
theorem evicted_installed (hrun : Runs.run (step backend) as (start cfg) = some s) :
    ∀ c, s.Evicted c → .handler c .install ∈ as := by
  refine Runs.run_history (P := fun as s => ∀ c, s.Evicted c → .handler c .install ∈ as) ?_ ?_ hrun
  · rintro c ⟨cause, hin, -⟩
    cases hin
  · intro as s a s' hrun hs hstep c hev
    apply List.mem_append_left
    have hserved : ∀ x ∈ serving s.routes.inner, .handler x.2.2 .install ∈ as := by
      intro x hx
      obtain ⟨ph, g, hph, hg, -⟩ := (inv_run hrun).routed hx
      exact mem_eventsOf.mp (((tracked_run hrun).passed hph).installed (by simp [hg]))
    -- whoever the step evicts loses a lease
    rcases ledger_step (inv_run hrun) hstep with heq | ⟨m, hm⟩
    · have hold : c ∈ s.ledger.reported := by
        rw [← heq]
        exact hev
      exact hs c hold
    · rcases Leases.reported_of_move hm hev with hold | ⟨k, o, hx⟩
      · exact hs c hold
      · exact hserved _ hx

/-- A connection is added to the table only by its own `install`. -/
theorem served_step {a : Action} {n : Text} (hs : Inv s) (hstep : step backend s a = some s')
    (hserved : (h, n, c) ∈ serving s'.routes.inner) :
    (h, n, c) ∈ serving s.routes.inner ∨ a = .handler c .install := by
  rcases ledger_step hs hstep with heq | ⟨m, hm⟩
  · left
    have hin : (h, n, c) ∈ s'.ledger.leases := hserved
    rw [heq] at hin
    exact hin
  · rcases Leases.lease_of_move hm hserved with hold | ⟨hbefore, hafter⟩
    · exact .inl hold
    · right
      have hnone : s.promised c = none := hbefore
      have hsome : (s'.promised c).isSome = true := hafter
      unfold promised at hnone hsome
      rcases step_phase hstep c with ⟨ev, ph, ph', eff, rfl, hph, -, htr, -, hph'⟩ | ⟨-, -, hph'⟩ |
        ⟨-, -, hsame⟩
      · have hr : ph.routed = none := by simpa [hph] using hnone
        have hr' : ph'.routed.isSome = true := by simpa [hph'] using hsome
        rcases (moves_of_transition htr).routed hr' with rfl | hrouted
        · rfl
        · simp [hr] at hrouted
      · simp [hph', Phase.routed] at hsome
      · rw [hsame, hnone] at hsome
        cases hsome

/-- A connection replaces others only in its own `install`. -/
theorem replaced_step {a : Action} {d : Connection} (hstep : step backend s a = some s')
    (hclose : (d, .replacedBy c) ∈ s'.closes) :
    (d, .replacedBy c) ∈ s.closes ∨ a = .handler c .install := by
  cases a with
  | accept c' =>
      obtain ⟨-, rfl⟩ := step_accept hstep
      exact .inl hclose
  | handler c' ev =>
      obtain ⟨ph, ph', eff, -, -, htr, rfl⟩ := step_handler hstep
      have heff := transition_effect htr
      cases eff with
      | install g =>
          rcases List.mem_append.mp hclose with hold | hnew
          · exact .inl hold
          · obtain ⟨x, -, hx⟩ := List.mem_map.mp hnew
            obtain ⟨-, hcause⟩ := Prod.mk.inj hx
            obtain rfl := CloseCause.replacedBy.inj hcause
            rw [heff.2.2]
            exact .inr rfl
      | close cause =>
          rcases List.mem_append.mp hclose with hold | hnew
          · exact .inl hold
          · obtain ⟨-, rfl⟩ := Prod.mk.inj (List.mem_singleton.mp hnew)
            exact absurd heff.2.2 (by simp [CloseCause.evicts])
      | _ => exact .inl hclose
  | kick n =>
      obtain rfl := Option.some.inj hstep
      rcases List.mem_append.mp hclose with hold | hnew
      · exact .inl hold
      · obtain ⟨x, -, hx⟩ := List.mem_map.mp hnew
        cases (Prod.mk.inj hx).2
  | _ =>
      obtain rfl := Option.some.inj hstep
      exact .inl hclose

/-- Right after a last-write-wins `install` a granted host is served by the new connection alone. -/
theorem alone_after_install {g : ClientGrant} (hs : Inv s)
    (hph : s.handlers.lookup c = some (.installing g)) (hlww : g.balance = .lastWriteWins)
    (hh : h ∈ g.hosts) :
    ∃ e, (s.routes.install g.hostnames g.clientName g.balance c).2.inner.lookup h = some e ∧
      ∀ d, d ∈ e.conns ↔ d = c := by
  have hserv := (serving_install (hs.fresh hph) (g := g)).1
  have halone : ∀ n d, (h, n, d) ∈ serving (s.routes.install g.hostnames g.clientName g.balance c).2.inner ↔
      n = g.clientName ∧ d = c := by
    intro n d
    rw [hserv]
    exact Leases.mem_assign_alone hh (by simp [hlww])
  obtain ⟨e, he, hn, hc⟩ := (halone g.clientName c).mpr ⟨rfl, rfl⟩
  refine ⟨e, he, fun d => ⟨fun hd => ((halone e.clientName d).mp ⟨e, he, rfl, hd⟩).2, ?_⟩⟩
  rintro rfl
  exact hc

/-! ### After `install` -/

section

variable (hrun : Runs.run (step backend) as (start cfg) = some s) {bs : List Action}
include hrun

/-- Nobody is installed twice. -/
theorem not_installed_again (hin : .handler c .install ∈ as) {s₁ s₂ : Server}
    (hrun₁ : Runs.run (step backend) bs s = some s₁)
    (hstep : step backend s₁ (.handler c .install) = some s₂) : False := by
  have hfull : Runs.run (step backend) (as ++ bs) (start cfg) = some s₁ :=
    Runs.run_append_eq_some.mpr ⟨s, hrun, hrun₁⟩
  obtain ⟨g, hph, -⟩ := step_install hstep
  exact not_installed hfull hph (List.mem_append_left _ hin)

/-- A connection that has been installed and lost a host never serves it again. -/
theorem not_served_again (hin : .handler c .install ∈ as)
    (hlost : ∀ n, (h, n, c) ∉ serving s.routes.inner)
    (hrun' : Runs.run (step backend) bs s = some s') : ∀ n, (h, n, c) ∉ serving s'.routes.inner := by
  refine Runs.run_history (P := fun _ s' => ∀ n, (h, n, c) ∉ serving s'.routes.inner) hlost ?_ hrun'
  intro bs s₁ a s₂ hrun₁ hs₁ hstep n hserved
  have hfull : Runs.run (step backend) (as ++ bs) (start cfg) = some s₁ :=
    Runs.run_append_eq_some.mpr ⟨s, hrun, hrun₁⟩
  rcases served_step (inv_run hfull) hstep hserved with hold | rfl
  · exact hs₁ n hold
  · exact not_installed_again hrun hin hrun₁ hstep

/-- A connection that has been installed replaces nobody afterwards. -/
theorem not_replaced_later (hin : .handler c .install ∈ as) {d : Connection}
    (hnot : (d, .replacedBy c) ∉ s.closes) (hrun' : Runs.run (step backend) bs s = some s') :
    (d, .replacedBy c) ∉ s'.closes := by
  refine Runs.run_history (P := fun _ s' => (d, .replacedBy c) ∉ s'.closes) hnot ?_ hrun'
  intro bs s₁ a s₂ hrun₁ hs₁ hstep hclose
  rcases replaced_step hstep hclose with hold | rfl
  · exact hs₁ hold
  · exact not_installed_again hrun hin hrun₁ hstep

/-- A connection keeps its hosts until it is evicted or removed. -/
theorem keeps_host {ph : Phase} {g : ClientGrant} (hph : s.handlers.lookup c = some ph)
    (hg : ph.routed = some g) (hh : h ∈ g.hosts) (hrun' : Runs.run (step backend) bs s = some s')
    (hremoved : .handler c .removeConn ∉ bs) (hevicted : ¬ s'.Evicted c) :
    ∃ e, s'.routes.inner.lookup h = some e ∧ c ∈ e.conns := by
  have hrouted : .handler c .removeConn ∉ bs →
      ∃ ph', s'.handlers.lookup c = some ph' ∧ ph'.routed = some g := by
    refine Runs.run_history (P := fun bs s' => .handler c .removeConn ∉ bs →
      ∃ ph', s'.handlers.lookup c = some ph' ∧ ph'.routed = some g) (fun _ => ⟨ph, hph, hg⟩) ?_ hrun'
    intro bs s₁ a s₂ hrun₁ hs₁ hstep hnot
    obtain ⟨ph₁, hph₁, hg₁⟩ := hs₁ fun hin => hnot (List.mem_append_left _ hin)
    rcases step_phase hstep c with ⟨ev, ph₀, ph₂, eff, rfl, hph₀, -, htr, -, hph₂⟩ | ⟨-, hfree, -⟩ |
      ⟨-, -, hsame⟩
    · rw [hph₁] at hph₀
      obtain rfl := Option.some.inj hph₀
      have hev : ev ≠ .removeConn := by
        rintro rfl
        exact hnot (by simp)
      exact ⟨ph₂, hph₂, (moves_of_transition htr).routedOn _ hg₁ hev⟩
    · rw [hph₁] at hfree
      cases hfree
    · exact ⟨ph₁, hsame.trans hph₁, hg₁⟩
  obtain ⟨ph', hph', hg'⟩ := hrouted hremoved
  have hfull : Runs.run (step backend) (as ++ bs) (start cfg) = some s' :=
    Runs.run_append_eq_some.mpr ⟨s, hrun, hrun'⟩
  have hpromised : s'.promised c = some ({h | h ∈ g.hosts}, g.clientName) :=
    promised_eq_some.mpr ⟨ph', g, hph', hg', rfl⟩
  obtain ⟨e, he, -, hc⟩ := (inv_run hfull).agrees.kept c _ _ hpromised hevicted h hh
  exact ⟨e, he, hc⟩

end

/-! ### Rivals -/

/-- Two connections of one client with last-write-wins, both granted `h`, whose peers have not gone
away; `c₂` sent its Hello after that of `c₁` was received. -/
structure Rivals (as : List Action) (c₁ c₂ : Connection) (h : Text) : Prop where
  granted : ∃ g₁ g₂, .handler c₁ (.admitted (some g₁)) ∈ as ∧ .handler c₂ (.admitted (some g₂)) ∈ as ∧
    g₁.clientName = g₂.clientName ∧ g₁.balance = .lastWriteWins ∧ g₂.balance = .lastWriteWins ∧
    h ∈ g₁.hosts ∧ h ∈ g₂.hosts
  newer : ∃ before after hello₁, as = before ++ .handler c₁ (.hello hello₁) :: after ∧
    ∀ hello₂, .peerHello c₂ hello₂ ∉ before
  peersOpen : .peerClose c₁ ∉ as ∧ .peerClose c₂ ∉ as

/-- The step `a` after `as` is the second of the two `install` steps. -/
def SecondInstall (as : List Action) (a : Action) (c₁ c₂ : Connection) : Prop :=
  a = .handler c₁ .install ∧ .handler c₂ .install ∈ as ∨
    a = .handler c₂ .install ∧ .handler c₁ .install ∈ as

/-- What last-write-wins owes the newer connection `c₂` from the state `s` on. -/
structure NewestKept (backend : Token → Option ClientGrant → Bool) (s : Server) (c₁ c₂ : Connection)
    (h : Text) : Prop where
  served : ∃ e, s.routes.inner.lookup h = some e ∧ c₂ ∈ e.conns ∧ c₁ ∉ e.conns
  notReplaced : (c₂, .replacedBy c₁) ∉ s.closes
  later : ∀ bs s', Runs.run (step backend) bs s = some s' →
    (∀ e, s'.routes.inner.lookup h = some e → c₁ ∉ e.conns) ∧ (c₂, .replacedBy c₁) ∉ s'.closes ∧
      (.handler c₂ .removeConn ∉ bs → ¬ s'.Evicted c₂ →
        ∃ e, s'.routes.inner.lookup h = some e ∧ c₂ ∈ e.conns)

/-- **When last-write-wins keeps the newest tunnel**: exactly when the older one is installed first. -/
theorem newest_kept_iff {a : Action} (hrun : Runs.run (step backend) (as ++ [a]) (start cfg) = some s)
    (hriv : Rivals (as ++ [a]) c₁ c₂ h) (hsecond : SecondInstall as a c₁ c₂) :
    NewestKept backend s c₁ c₂ h ↔ .handler c₁ .install ∈ as := by
  obtain ⟨g₁, g₂, hg₁, hg₂, -, hlww₁, hlww₂, hh₁, hh₂⟩ := hriv.granted
  obtain ⟨s₁, hrun₁, hstep⟩ := Runs.run_concat.mp hrun
  have hs := inv_run hrun₁
  constructor
  · intro hkept
    rcases hsecond with ⟨rfl, -⟩ | ⟨-, hin⟩
    · obtain ⟨g, hph, -, hroutes⟩ := step_install hstep
      obtain rfl := grant_of_installing hrun₁ hph (by simpa using hg₁)
      obtain ⟨e, he, hconns⟩ := alone_after_install hs hph hlww₁ hh₁
      obtain ⟨e', he', -, hnot⟩ := hkept.served
      rw [hroutes, he] at he'
      obtain rfl := Option.some.inj he'
      exact absurd ((hconns c₁).mpr rfl) hnot
    · exact hin
  · intro hfirst
    have hlast : a = .handler c₂ .install := by
      rcases hsecond with ⟨rfl, -⟩ | ⟨ha, -⟩
      · obtain ⟨g, hph, -⟩ := step_install hstep
        exact absurd hfirst (not_installed hrun₁ hph)
      · exact ha
    subst hlast
    obtain ⟨g, hph, hwelcoming, hroutes⟩ := step_install hstep
    obtain rfl := grant_of_installing hrun₁ hph (by simpa using hg₂)
    have hnew := not_installed hrun₁ hph
    have hne : c₁ ≠ c₂ := by
      rintro rfl
      exact hnew hfirst
    obtain ⟨e, he, hconns⟩ := alone_after_install hs hph hlww₂ hh₂
    rw [← hroutes] at he
    have hlost : ∀ n, (h, n, c₁) ∉ serving s.routes.inner := by
      rintro n ⟨e', he', -, hc⟩
      rw [he] at he'
      obtain rfl := Option.some.inj he'
      exact hne ((hconns c₁).mp hc)
    have hkept : (c₂, .replacedBy c₁) ∉ s.closes := by
      intro hclose
      rcases replaced_step hstep hclose with hold | hinst
      · exact hnew (evicted_installed hrun₁ c₂ ⟨_, hold, rfl⟩)
      · exact hne (Action.handler.inj hinst).1.symm
    have hin : .handler c₁ .install ∈ as ++ [.handler c₂ .install] := List.mem_append_left _ hfirst
    refine ⟨⟨e, he, (hconns c₂).mpr rfl, fun hc => hne ((hconns c₁).mp hc)⟩, hkept, ?_⟩
    intro bs s' hrun'
    refine ⟨?_, not_replaced_later hrun hin hkept hrun', keeps_host hrun hwelcoming rfl hh₂ hrun'⟩
    intro e' he' hc
    exact not_served_again hrun hin hlost hrun' e'.clientName ⟨e', he', rfl, hc⟩

/-- A connection arrives and its Hello is received. -/
def arrive (c : Connection) (hello : Hello) : List Action :=
  [.accept c, .handler c .streamOpened, .peerHello c hello, .handler c (.hello hello)]

/-- The backend answers, and the handler is about to install. -/
def settle (c : Connection) (g : ClientGrant) : List Action :=
  [.handler c (.admitted (some g)), .handler c (.closeCheck false)]

/-- Connections granted a host alike are rivals in a run that starts with the Hello of the first. -/
theorem rivals_of_arrive (g : ClientGrant) (hello : Hello) (hne : c₁ ≠ c₂)
    (hfirst : arrive c₁ hello <+: as)
    (hg₁ : .handler c₁ (.admitted (some g)) ∈ as) (hg₂ : .handler c₂ (.admitted (some g)) ∈ as)
    (hlww : g.balance = .lastWriteWins) (hh : h ∈ g.hosts)
    (hopen : .peerClose c₁ ∉ as ∧ .peerClose c₂ ∉ as) : Rivals as c₁ c₂ h where
  granted := ⟨g, g, hg₁, hg₂, rfl, hlww, hlww, hh, hh⟩
  newer := by
    obtain ⟨after, rfl⟩ := hfirst
    refine ⟨[.accept c₁, .handler c₁ .streamOpened, .peerHello c₁ hello], after, hello, rfl, ?_⟩
    intro hello₂ hin
    simp [hne.symm] at hin
  peersOpen := hopen

/-- The grant of one host to a client with last-write-wins. -/
def replacing : ClientGrant := ⟨['a'], .lastWriteWins, [(['x'], .terminated)]⟩

/-- Two connections of one client arrive one after the other, and the backend answers in that order. -/
def promptAdmit : List Action :=
  let hello : Hello := ⟨Vector.replicate 32 0, ['a']⟩
  arrive (.nth 0) hello ++ arrive (.nth 1) hello ++ settle (.nth 0) replacing ++
    [.handler (.nth 0) .install] ++ settle (.nth 1) replacing

/-- Two connections of one client arrive one after the other, and the backend answers the first only
after the second is installed and welcomed. -/
def slowAdmit : List Action :=
  let hello : Hello := ⟨Vector.replicate 32 0, ['a']⟩
  arrive (.nth 0) hello ++ arrive (.nth 1) hello ++ settle (.nth 1) replacing ++
    [.handler (.nth 1) .install] ++ welcome (.nth 1) ++ settle (.nth 0) replacing

theorem newest_kept_prompt :
    ∃ s, Runs.run (step fun _ _ => true) (promptAdmit ++ [.handler (.nth 1) .install]) (start {}) =
      some s ∧ NewestKept (fun _ _ => true) s (.nth 0) (.nth 1) ['x'] := by
  have hrun : (Runs.run (step fun _ _ => true) (promptAdmit ++ [.handler (.nth 1) .install])
      (start {})).isSome = true := by decide
  obtain ⟨s, hs⟩ := Option.isSome_iff_exists.mp hrun
  have hsecond : SecondInstall promptAdmit (.handler (.nth 1) .install) (.nth 0) (.nth 1) :=
    .inr ⟨rfl, by decide⟩
  have hriv : Rivals (promptAdmit ++ [.handler (.nth 1) .install]) (.nth 0) (.nth 1) ['x'] :=
    rivals_of_arrive replacing ⟨Vector.replicate 32 0, ['a']⟩ (by decide) (by decide)
      (by decide) (by decide) rfl (by decide) (by decide)
  exact ⟨s, hs, (newest_kept_iff hs hriv hsecond).mpr (by decide)⟩

/-- The late grant of the older connection takes the host from the newer one and closes it. -/
theorem newest_lost_slow :
    ∃ s, Runs.run (step fun _ _ => true) (slowAdmit ++ [.handler (.nth 0) .install]) (start {}) =
        some s ∧
      Rivals (slowAdmit ++ [.handler (.nth 0) .install]) (.nth 0) (.nth 1) ['x'] ∧
      SecondInstall slowAdmit (.handler (.nth 0) .install) (.nth 0) (.nth 1) ∧
      (s.routes.inner.lookup ['x']).map HostRoutes.conns = some [.nth 0] ∧
      s.closes = [(.nth 1, .replacedBy (.nth 0))] ∧
      ¬ NewestKept (fun _ _ => true) s (.nth 0) (.nth 1) ['x'] := by
  have hobs : (Runs.run (step fun _ _ => true) (slowAdmit ++ [.handler (.nth 0) .install])
      (start {})).map (fun s => ((s.routes.inner.lookup ['x']).map HostRoutes.conns, s.closes)) =
      some (some [.nth 0], [(.nth 1, .replacedBy (.nth 0))]) := by decide
  obtain ⟨s, hs, hsobs⟩ := Option.map_eq_some_iff.mp hobs
  obtain ⟨hconns, hcloses⟩ := Prod.mk.inj hsobs
  have hriv : Rivals (slowAdmit ++ [.handler (.nth 0) .install]) (.nth 0) (.nth 1) ['x'] :=
    rivals_of_arrive replacing ⟨Vector.replicate 32 0, ['a']⟩ (by decide) (by decide)
      (by decide) (by decide) rfl (by decide) (by decide)
  refine ⟨s, hs, hriv, .inl ⟨rfl, by decide⟩, hconns, hcloses, ?_⟩
  intro hkept
  have hnot := hkept.notReplaced
  rw [hcloses] at hnot
  exact hnot List.mem_cons_self

end Server

end Tuyau
