import Tuyau.Backend
import Tuyau.DynamicMode

/-! # The routing queries of static mode agree

A public connection is served after four questions to the routing table: whether TLS is terminated
for its host, whether the plaintext is piped, whether an upstream serves it, and which route it takes.
Each is computed in its own way from the five parts of the table.  In static mode only the grants of
the configuration are installed, so every entry of a tunnel is that of a configured hostname
(`staticTable_after`, by induction on the calls), and all four answers can be read off one entry of the
configuration: `RoutedAs entry t h` says so, and **`queries_agree`** proves it of the `routingEntry` in
every state of every run. -/

namespace Tuyau

open AsciiText

namespace RoutingTable

/-- The calls of static mode: the installed grants are those of the static backend, and nothing is
kicked or provisioned. -/
def StaticOp (cfg : ServerConfig) : Op → Prop
  | .install g _ => ∃ token, (StaticBackend.new cfg).admitClient token = some g
  | .removeConn _ => True
  | .lookup _ _ => True
  | .kick _ => False
  | .setTerminated _ => False

/-- The queries about a host answer what its entry in the configuration says. -/
structure RoutedAs (entry : Option ConfigEntry) (t : RoutingTable) (h : Text) : Prop where
  terminated : t.isTerminated h = true ↔
    ∃ e, entry = some e ∧ (e.tlsMode = .terminated ∨ e.tlsMode = .tlsOffload)
  offload : t.isOffload h = true ↔ ∃ e, entry = some e ∧ e.tlsMode = .tlsOffload
  upstream : t.routesToUpstream h = true ↔ ∃ u, entry = some (.upstream u)
  localRoute : ∀ isOpen, (∃ target, (t.lookup isOpen h).1 = some (.localTo target)) ↔
    ∃ u, entry = some (.upstream u)
  target : ∀ isOpen target, (t.lookup isOpen h).1 = some (.localTo target) →
    ∃ u, entry = some (.upstream u) ∧ u.target = some target
  tunnel : ∀ isOpen r, (t.lookup isOpen h).1 = some (.tunnel r) →
    ∃ e, entry = some (.hostname e) ∧ r.tlsMode = e.tlsMode

variable {cfg : ServerConfig} {ops : List Op} {t : RoutingTable} {h : Text}

/-! ### The table in every state -/

theorem staticTable_fromConfig (cfg : ServerConfig) :
    StaticTable cfg (fromConfig cfg.hostnames cfg.upstreams) :=
  ⟨⟨∅, rfl⟩, entries_empty⟩

/-- A call of static mode leaves the tunnels on configured hostnames. -/
theorem StaticTable.call (ht : StaticTable cfg t) {op : Op} (hop : StaticOp cfg op) :
    StaticTable cfg (t.call op) := by
  constructor
  · refine ht.config.trans (sameConfig_call fun full heq => ?_)
    rw [heq] at hop
    exact hop
  · refine Entries.call ?_ (fun _ _ _ he _ => he) (fun _ _ _ he => he) ht.entries
    rintro g c rfl p hp e -
    obtain ⟨token, hg⟩ := hop
    obtain ⟨client, -, -, hname, -, hhosts⟩ := StaticBackend.admitClient_eq_some hg
    obtain ⟨entry, hentry, hclient, hhost, hmode⟩ := (hhosts p).mp hp
    refine ⟨entry, hentry, hhost, ?_, ?_⟩
    · rw [HostRoutes.give_clientName, hname, hclient]
    · rw [HostRoutes.give_tlsMode, hmode]

theorem staticTable_after (hops : ∀ op ∈ ops, StaticOp cfg op) : StaticTable cfg (after cfg ops) := by
  induction ops using List.reverseRecOn with
  | nil => exact staticTable_fromConfig cfg
  | append_singleton ops op ih =>
      rw [after_concat]
      refine (ih fun op' hop' => hops op' (List.mem_append_left _ hop')).call (hops op ?_)
      exact List.mem_append_right _ List.mem_cons_self

/-! ### The answers -/

/-- An upstream that routes a host has a target. -/
theorem target_of_routingEntry (htargets : cfg.HasTargets) {u : UpstreamEntry}
    (hentry : cfg.routingEntry h = some (.upstream u)) : ∃ target, u.target = some target := by
  have hu := ServerConfig.mem_of_routingEntry hentry
  exact Option.isSome_iff_exists.mp (UpstreamEntry.target_isSome (htargets u hu))

/-- A tunnel is found for configured hostnames only. -/
theorem tunnel_static (hd : cfg.HostsDistinct) (hst : StaticTable cfg t) {isOpen : Connection → Bool}
    {r : RouteEntry} (hl : (t.lookup isOpen h).1 = some (.tunnel r)) :
    ∃ e, cfg.routingEntry h = some (.hostname e) ∧ r.tlsMode = e.tlsMode := by
  obtain ⟨-, entry, hentry, -, hmode, -⟩ := lookup_eq_tunnel hl
  obtain ⟨e, he, rfl, -, hmode'⟩ := hst.entries h entry hentry
  have hexact := (ServerConfig.exactEntry_eq_some hd).mpr (.inr ⟨e, he, rfl, rfl⟩)
  exact ⟨e, by rw [ServerConfig.routingEntry, hexact, Option.some_or], hmode.trans hmode'.symm⟩

section

variable (hd : cfg.HostsDistinct) (htargets : cfg.HasTargets) (hst : StaticTable cfg t)
include hd htargets hst

/-- A host goes to an upstream exactly if an upstream entry routes it. -/
theorem upstream_eq_some_static {up : LocalUpstream} :
    t.upstream h = some up ↔
      ∃ u, cfg.routingEntry h = some (.upstream u) ∧ u.resolved = some up := by
  rw [upstream_static hd htargets hst, Option.bind_eq_some_iff]
  constructor
  · rintro ⟨entry, hentry, hup⟩
    cases entry with
    | hostname e => cases hup
    | upstream u => exact ⟨u, hentry, hup⟩
  · rintro ⟨u, hentry, hup⟩
    exact ⟨.upstream u, hentry, hup⟩

theorem localTo_static {isOpen : Connection → Bool} {target : UpstreamTarget} :
    (t.lookup isOpen h).1 = some (.localTo target) ↔
      ∃ u, cfg.routingEntry h = some (.upstream u) ∧ u.target = some target := by
  rw [lookup_eq_localTo]
  constructor
  · rintro ⟨up, hup, rfl⟩
    obtain ⟨u, hentry, hresolved⟩ := (upstream_eq_some_static hd htargets hst).mp hup
    obtain ⟨target, htarget, rfl⟩ := Option.map_eq_some_iff.mp hresolved
    exact ⟨u, hentry, htarget⟩
  · rintro ⟨u, hentry, htarget⟩
    refine ⟨⟨target, u.tlsMode⟩, (upstream_eq_some_static hd htargets hst).mpr ⟨u, hentry, ?_⟩, rfl⟩
    rw [UpstreamEntry.resolved, htarget, Option.map_some]

theorem routedAs_static : RoutedAs (cfg.routingEntry h) t h := by
  have hlocal : ∀ isOpen, (∃ target, (t.lookup isOpen h).1 = some (.localTo target)) ↔
      ∃ u, cfg.routingEntry h = some (.upstream u) := by
    intro isOpen
    constructor
    · rintro ⟨target, hl⟩
      obtain ⟨u, hentry, -⟩ := (localTo_static hd htargets hst).mp hl
      exact ⟨u, hentry⟩
    · rintro ⟨u, hentry⟩
      obtain ⟨target, htarget⟩ := target_of_routingEntry htargets hentry
      exact ⟨target, (localTo_static hd htargets hst).mpr ⟨u, hentry, htarget⟩⟩
  refine ⟨?_, ?_, ?_, hlocal, fun isOpen target hl => (localTo_static hd htargets hst).mp hl,
    fun isOpen r hl => tunnel_static hd hst hl⟩
  · rw [isTerminated_static hd htargets hst, Option.any_eq_true]
    simp only [TlsMode.terminates_iff]
  · rw [isOffload_static hd htargets hst, Option.any_eq_true]
    simp only [decide_eq_true_eq]
  · rw [← hlocal fun _ => true, routesToUpstream_eq, Option.isSome_iff_exists]
    constructor
    · rintro ⟨up, hup⟩
      exact ⟨up.target, lookup_eq_localTo.mpr ⟨up, hup, rfl⟩⟩
    · rintro ⟨target, hl⟩
      obtain ⟨up, hup, -⟩ := lookup_eq_localTo.mp hl
      exact ⟨up, hup⟩

end

/-- **The four queries agree with the entry that routes the host**, in every state of static mode; a
configured tunnel hostname never falls back to a wildcard, whether a tunnel serves it or not. -/
theorem queries_agree (hcfg : cfg.validate = .ok ()) (hd : cfg.HostsDistinct)
    (hops : ∀ op ∈ ops, StaticOp cfg op) (h : Text) :
    RoutedAs (cfg.routingEntry h) (after cfg ops) h ∧
      ∀ e ∈ cfg.hostnames, toAsciiLowercase e.host = toAsciiLowercase h →
        (after cfg ops).routesToUpstream h = false ∧
          ∀ isOpen target, ((after cfg ops).lookup isOpen h).1 ≠ some (.localTo target) := by
  have htargets := (ServerConfig.validate_ok hcfg).targets
  have hrouted : RoutedAs (cfg.routingEntry h) (after cfg ops) h :=
    routedAs_static hd htargets (staticTable_after hops)
  refine ⟨hrouted, fun e he hname => ?_⟩
  have hexact := (ServerConfig.exactEntry_eq_some hd).mpr (.inr ⟨e, he, hname, rfl⟩)
  have hentry : ∀ u, cfg.routingEntry h ≠ some (.upstream u) := by
    intro u hu
    rw [ServerConfig.routingEntry, hexact] at hu
    cases hu
  constructor
  · rw [Bool.eq_false_iff]
    intro hup
    obtain ⟨u, hu⟩ := hrouted.upstream.mp hup
    exact hentry u hu
  · intro isOpen target hl
    obtain ⟨u, hu, -⟩ := hrouted.target isOpen target hl
    exact hentry u hu

/-- A tunnel hostname under a wildcard upstream. -/
def tunnelUnderWildcard : ServerConfig where
  clients := [⟨['a'], Vector.replicate 32 1, .roundRobin⟩]
  hostnames := [⟨"App.x".toList, ['a'], .tlsOffload, none, none⟩]
  upstreams := [{ host := "*.x".toList, localAddr := some (.v4 127 0 0 1 8080) }]

/-- The client connects, a visitor asks for the host, and the client leaves. -/
theorem queries_agree_under_wildcard :
    let ops : List Op := [.install ⟨['a'], .roundRobin, [("App.x".toList, .tlsOffload)]⟩ (.nth 0),
      .lookup (fun _ => true) "App.x".toList, .removeConn 0]
    tunnelUnderWildcard.validate = .ok () ∧
      RoutedAs (tunnelUnderWildcard.routingEntry "app.X".toList) (after tunnelUnderWildcard ops)
        "app.X".toList := by
  intro ops
  have hops : ∀ op ∈ ops, StaticOp tunnelUnderWildcard op := by
    intro op hop
    simp only [ops, List.mem_cons, List.not_mem_nil, or_false] at hop
    rcases hop with rfl | rfl | rfl
    · exact ⟨Vector.replicate 32 1, rfl⟩
    · trivial
    · trivial
  exact ⟨rfl, (queries_agree rfl (by decide) hops _).1⟩

end RoutingTable

end Tuyau
