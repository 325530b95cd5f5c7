import Tuyau.Agreement

/-! # Revoking a client

`TunnelServer::kick` walks the routing table and closes the connections it finds there in the name
of the client, while `Control` lists every tunnel that was welcomed.  `Revoked` states what the
revocation of a client is for: its listed tunnels are closed, its routes are gone, nobody else's
route changes, and the number returned is that of the connections `close` was called on.

`kick_complete_iff` says in which reachable states `kick` achieves it.  An open tunnel that is listed
is in the table exactly when it was granted a hostname (`mem_kick_of_tunnel`): `install` returns at
once on an empty grant, so that a tunnel without hostnames is listed but survives the revocation of
its client. -/

namespace Tuyau

open AsciiText RoutingTable

/-- The connections that `kick` returns are distinct. -/
theorem RoutingTable.nodup_kick (t : RoutingTable) (n : Text) : (t.kick n).1.Nodup :=
  List.Nodup.of_map _ (AssocMap.nodup_keys_dedupOn Connection.stableId [] _)

namespace Server

variable {backend : Token → Option ClientGrant → Bool} {s : Server} {c : Connection} {n : Text}

/-- The registry lists the tunnel of `c` with `info`. -/
def Lists (s : Server) (c : Connection) (info : TunnelInfo) : Prop :=
  s.Running c ∧ s.control.tunnels.lookup c.stableId = some info

/-- What revoking the client `n` is for. -/
structure Revoked (s : Server) (n : Text) : Prop where
  closed : ∀ c info, s.Lists c info → info.clientName = n → (s.kick n).2.closed c = true
  gone : ∀ h e, (s.kick n).2.routes.inner.lookup h = some e → e.clientName ≠ n
  others : ∀ h e, e.clientName ≠ n →
    ((s.kick n).2.routes.inner.lookup h = some e ↔ s.routes.inner.lookup h = some e)
  counted : ∃ conns : List Connection, conns.Nodup ∧ (s.kick n).1 = conns.length ∧
    (s.kick n).2.closes = s.closes ++ conns.map fun c => (c, .revoked n)

theorem closed_kick :
    (s.kick n).2.closed c = true ↔ s.closed c = true ∨ c ∈ (s.routes.kick n).1 := by
  unfold closed kick
  simp [or_assoc]

/-- The registry lists a running connection with the grant its handler is registered under. -/
theorem Inv.lists (hs : Inv s) {info : TunnelInfo} (hlist : s.Lists c info) :
    ∃ ph g, s.handlers.lookup c = some ph ∧ ph.registered = some g ∧ info = c.info g := by
  obtain ⟨hrun, hinfo⟩ := hlist
  obtain ⟨d, g, hid, hreg, hg⟩ := (hs.listed _ _).mp hinfo
  obtain ⟨ph, hph, hpg⟩ := registeredAs_eq_some.mp hreg
  have hdc : d = c := hs.distinct d c (running_of_registered hph hpg) hrun hid
  subst hdc
  exact ⟨ph, g, hph, hpg, hg⟩

/-- The handler of a listed connection that is open waits in its tunnel. -/
theorem Inv.tunnel_of_lists (hs : Inv s) {info : TunnelInfo} (hlist : s.Lists c info)
    (hopen : s.closed c = false) :
    ∃ g, s.handlers.lookup c = some (.tunnel g) ∧ info = c.info g := by
  obtain ⟨ph, g, hph, hg, hinfo⟩ := hs.lists hlist
  have hwait : ph.afterClose ≠ true := by
    intro hafter
    have hclosed := hs.afterClose c ph hph hafter
    rw [hopen] at hclosed
    cases hclosed
  cases ph with
  | tunnel g' =>
      obtain rfl := Option.some.inj hg
      exact ⟨g', hph, hinfo⟩
  | cleaning g' => exact absurd rfl hwait
  | unregistering g' => exact absurd rfl hwait
  | _ => cases hg

/-- `kick` finds an open tunnel of the client exactly when it was granted a hostname. -/
theorem Inv.mem_kick_of_tunnel (hs : Inv s) {g : ClientGrant}
    (hph : s.handlers.lookup c = some (.tunnel g)) (hopen : s.closed c = false) :
    c ∈ (s.routes.kick g.clientName).1 ↔ g.hosts ≠ [] := by
  rw [mem_kick hs.inj]
  constructor
  · rintro ⟨h, hserv⟩
    obtain ⟨ph, g', hph', hg', hh, -⟩ := hs.routed hserv
    rw [hph] at hph'
    obtain rfl := Option.some.inj hph'
    obtain rfl := Option.some.inj hg'
    exact List.ne_nil_of_mem hh
  · intro hne
    obtain ⟨h, hh⟩ := List.exists_mem_of_ne_nil _ hne
    have hkeep : ¬ s.Evicted c := by
      rintro ⟨cause, hin, -⟩
      have hclosed : s.closed c = true := by
        simp only [closed, Bool.or_eq_true, decide_eq_true_eq]
        exact .inr (List.mem_map_of_mem hin)
      rw [hopen] at hclosed
      cases hclosed
    have hpromised : s.promised c = some ({h | h ∈ g.hosts}, g.clientName) :=
      promised_eq_some.mpr ⟨_, g, hph, rfl, rfl⟩
    exact ⟨h, hs.agrees.kept c _ _ hpromised hkeep h hh⟩

/-- **When revocation is complete**: exactly when every open tunnel listed under the client was granted
a hostname. -/
theorem kick_complete_iff {cfg : ServerConfig} {as : List Action}
    (hrun : Runs.run (step backend) as (start cfg) = some s) :
    s.Revoked n ↔ ∀ c info, s.Lists c info → info.clientName = n → s.closed c = false →
      info.hostnames ≠ [] := by
  have hs := inv_run hrun
  constructor
  · intro hrev c info hlist hn hopen
    have hclosed := closed_kick.mp (hrev.closed c info hlist hn)
    obtain ⟨g, hph, rfl⟩ := hs.tunnel_of_lists hlist hopen
    obtain rfl : g.clientName = n := hn
    apply (hs.mem_kick_of_tunnel hph hopen).mp
    exact hclosed.resolve_left (by simp [hopen])
  · intro hhosts
    refine ⟨?_, ?_, ?_, ?_⟩
    · intro c info hlist hn
      apply closed_kick.mpr
      cases hopen : s.closed c with
      | true => exact .inl rfl
      | false =>
          right
          have hne := hhosts c info hlist hn hopen
          obtain ⟨g, hph, rfl⟩ := hs.tunnel_of_lists hlist hopen
          obtain rfl : g.clientName = n := hn
          exact (hs.mem_kick_of_tunnel hph hopen).mpr hne
    · intro h e he
      exact (lookup_kick.mp he).2
    · intro h e hne
      exact ⟨fun he => (lookup_kick.mp he).1, fun he => lookup_kick.mpr ⟨he, hne⟩⟩
    · exact ⟨(s.routes.kick n).1, s.routes.nodup_kick n, rfl, rfl⟩

/-- One client with two tunnels, the first for two hosts, and another client between them. -/
def revocation : List Action :=
  let hello : Hello := ⟨Vector.replicate 32 0, ['a']⟩
  comeUp (.nth 0) hello ⟨['a'], .roundRobin, [(['x'], .terminated), (['y'], .passthrough)]⟩ ++
    welcome (.nth 0) ++ comeUp (.nth 1) hello ⟨['b'], .lastWriteWins, [(['z'], .terminated)]⟩ ++
    welcome (.nth 1) ++ comeUp (.nth 2) hello ⟨['a'], .roundRobin, [(['y'], .passthrough)]⟩ ++
    welcome (.nth 2)

theorem kick_complete_two :
    ∃ s, Runs.run (step fun _ _ => true) revocation (start {}) = some s ∧ (s.kick ['a']).1 = 2 ∧
      s.Revoked ['a'] := by
  have hobs : (Runs.run (step fun _ _ => true) revocation (start {})).map
      (fun s => ((s.kick ['a']).1, s.control.tunnels.entries.map fun e => e.2.hostnames)) =
      some (2, [[['y']], [['z']], [['x'], ['y']]]) := by decide
  obtain ⟨s, hs, hsobs⟩ := Option.map_eq_some_iff.mp hobs
  obtain ⟨hnum, hhosts⟩ := Prod.mk.inj hsobs
  refine ⟨s, hs, hnum, (kick_complete_iff hs).mpr ?_⟩
  intro c info hlist _ _ hnil
  have hin : info.hostnames ∈ s.control.tunnels.entries.map fun e => e.2.hostnames :=
    List.mem_map_of_mem (AList.mem_lookup_iff.mp hlist.2)
  rw [hhosts, hnil] at hin
  exact absurd hin (by decide)

/-- A tunnel granted no hostname is listed under its client; `kick` closes nothing, and the tunnel
stays open. -/
theorem kick_misses_hostless :
    ∃ s, Runs.run (step fun _ _ => true)
        (comeUp (.nth 0) ⟨Vector.replicate 32 0, ['a']⟩ ⟨['a'], .lastWriteWins, []⟩ ++ welcome (.nth 0))
        (start {}) = some s ∧
      s.Lists (.nth 0) ⟨['a'], (.v4 192 0 2 1 4433), []⟩ ∧ (s.kick ['a']).1 = 0 ∧
      (s.kick ['a']).2.closed (.nth 0) = false ∧ ¬ s.Revoked ['a'] := by
  have hobs : (Runs.run (step fun _ _ => true)
      (comeUp (.nth 0) ⟨Vector.replicate 32 0, ['a']⟩ ⟨['a'], .lastWriteWins, []⟩ ++ welcome (.nth 0))
      (start {})).map (fun s => (s.handlers.lookup (.nth 0), s.control.tunnels.lookup 0,
        (s.kick ['a']).1, (s.kick ['a']).2.closed (.nth 0))) =
      some (some (.tunnel ⟨['a'], .lastWriteWins, []⟩),
        some ⟨['a'], (.v4 192 0 2 1 4433), []⟩, 0, false) := by decide
  obtain ⟨s, hs, hsobs⟩ := Option.map_eq_some_iff.mp hobs
  simp only [Prod.mk.injEq] at hsobs
  obtain ⟨hph, hinfo, hnum, hopen⟩ := hsobs
  have hlist : s.Lists (.nth 0) ⟨['a'], (.v4 192 0 2 1 4433), []⟩ := ⟨⟨_, hph, by simp⟩, hinfo⟩
  refine ⟨s, hs, hlist, hnum, hopen, ?_⟩
  intro hrev
  have hclosed := hrev.closed _ _ hlist rfl
  rw [hopen] at hclosed
  cases hclosed

end Server

end Tuyau
