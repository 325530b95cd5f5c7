import Tuyau.Agreement

/-! # Static mode

In static mode the backend is `StaticBackend`, so that every grant is read off the configuration.
`Configured` is what this makes of an entry of the routing table: it belongs to the client and has
the mode that the configuration gives its host, each of its connections showed the token of that
client, and a client that replaces its tunnels has one of them at most.  `configured_run` keeps it
over every run.

`static_tenant_isolation` draws the consequences for lookups, and shows that in an accepted
configuration `install` never meets the entry of another client. -/

namespace Tuyau

open AsciiText RoutingTable

/-- The answers of the static backend. -/
def staticAnswers (cfg : ServerConfig) (token : Token) (answer : Option ClientGrant) : Bool :=
  decide ((StaticBackend.new cfg).admitClient token = answer)

namespace RoutingTable

/-- Where the entries of all hosts belong to the client already, nothing is taken over. -/
theorem takeovers_eq_nil {n : Text} {b : Balance} {c : Connection} :
    ∀ {hosts : List (Text × TlsMode)} {inner : AssocMap Text HostRoutes},
      (∀ p ∈ hosts, ∀ e, inner.lookup p.1 = some e → e.clientName = n) →
      takeovers n b c hosts inner = []
  | [], _, _ => rfl
  | (host, mode) :: hosts, inner, hown => by
      have hn : ((inner.lookup host).getD (.vacant n mode)).clientName = n := by
        cases he : inner.lookup host with
        | none => rfl
        | some e => exact hown (host, mode) List.mem_cons_self e he
      rw [takeovers, if_neg (by simpa using hn), List.nil_append]
      refine takeovers_eq_nil ?_
      intro p hp e he
      rw [AssocMap.lookup_insert_eq_ite] at he
      split_ifs at he with hh
      · obtain rfl := Option.some.inj he
        exact HostRoutes.give_clientName
      · exact hown p (List.mem_cons_of_mem _ hp) e he

end RoutingTable

namespace Server

variable {cfg : ServerConfig} {as : List Action} {s : Server}

/-- The connection showed the token of a client of that name. -/
def Presented (cfg : ServerConfig) (as : List Action) (c : Connection) (clientName : Text) : Prop :=
  ∃ client ∈ cfg.clients, client.name = clientName ∧
    ∃ hello, .handler c (.hello hello) ∈ as ∧ hello.token = client.token

/-- An entry of the table is what the configuration says about its host. -/
structure Configured (cfg : ServerConfig) (as : List Action) (host : Text) (e : HostRoutes) : Prop where
  entry : ∃ entry ∈ cfg.hostnames,
    entry.host = host ∧ entry.client = e.clientName ∧ entry.tlsMode = e.tlsMode
  presented : ∀ c ∈ e.conns, Presented cfg as c e.clientName
  single : ∀ client ∈ cfg.clients, client.name = e.clientName → client.balance = .lastWriteWins →
    e.conns.length ≤ 1

theorem Presented.concat {c : Connection} {n : Text} (a : Action) (h : Presented cfg as c n) :
    Presented cfg (as ++ [a]) c n := by
  obtain ⟨client, hmem, hn, hello, hin, ht⟩ := h
  exact ⟨client, hmem, hn, hello, List.mem_append_left _ hin, ht⟩

/-- A static grant makes an entry what the configuration says. -/
theorem Configured.give {g : ClientGrant} {c : Connection} {hello : Hello} {p : Text × TlsMode}
    {e : HostRoutes} (hclients : (cfg.clients.map ClientEntry.name).Nodup)
    (hin : .handler c (.hello hello) ∈ as) (hg : (StaticBackend.new cfg).admitClient hello.token = some g)
    (hp : p ∈ g.hostnames) (he : Configured cfg as p.1 e ∨ e = .vacant g.clientName p.2) :
    Configured cfg as p.1 (e.give g.clientName p.2 g.balance c).1 := by
  obtain ⟨client, hmem, htoken, hname, hbal, hhosts⟩ := StaticBackend.admitClient_eq_some hg
  refine ⟨?_, ?_, ?_⟩
  · obtain ⟨entry, hentry, hcl, hhost, hmode⟩ := (hhosts p).mp hp
    exact ⟨entry, hentry, hhost, by rw [HostRoutes.give_clientName, hname, hcl],
      by rw [HostRoutes.give_tlsMode, hmode]⟩
  · intro d hd
    rw [HostRoutes.give_clientName]
    rcases HostRoutes.mem_of_mem_give hd with rfl | ⟨hd, hn⟩
    · exact ⟨client, hmem, hname.symm, hello, hin, htoken.symm⟩
    · rcases he with he | rfl
      · exact hn ▸ he.presented d hd
      · cases hd
  · intro client' hmem' hname' hlww
    rw [HostRoutes.give_clientName, hname] at hname'
    obtain rfl := List.inj_on_of_nodup_map hclients hmem' hmem hname'
    rw [hbal, hlww, HostRoutes.give_lastWriteWins]
    exact le_refl 1

/-- The handler of a connection about to be installed was shown its token. -/
theorem admitClient_of_installing (hrun : Runs.run (step (staticAnswers cfg)) as (start cfg) = some s)
    {c : Connection} {g : ClientGrant} (hph : s.handlers.lookup c = some (.installing g)) :
    ∃ hello, .handler c (.hello hello) ∈ as ∧
      (StaticBackend.new cfg).admitClient hello.token = some g := by
  obtain ⟨hello, hin, hb⟩ := granted_run hrun c _ g hph rfl
  exact ⟨hello, hin, of_decide_eq_true hb⟩

theorem configured_run (hclients : (cfg.clients.map ClientEntry.name).Nodup)
    (hrun : Runs.run (step (staticAnswers cfg)) as (start cfg) = some s) :
    Entries (Configured cfg as) s.routes.inner := by
  refine Runs.run_history (P := fun as s => Entries (Configured cfg as) s.routes.inner)
    entries_empty ?_ hrun
  intro as s a s' hrun hs h
  have hs' : Entries (Configured cfg (as ++ [a])) s.routes.inner := fun host e he =>
    ⟨(hs host e he).entry, fun c hc => ((hs host e he).presented c hc).concat a, (hs host e he).single⟩
  rcases routes_step (inv_run hrun) h with heq | ⟨op, hop, hinstall, -⟩
  · rw [heq]
    exact hs'
  · rw [eq_call_of_step hop]
    refine Entries.call ?_ ?_ ?_ hs'
    · intro g c hgc p hp e he
      obtain ⟨hello, hin, hg⟩ := admitClient_of_installing hrun (hinstall g c hgc)
      exact Configured.give hclients (List.mem_append_left _ hin) hg hp he
    · intro stableId host e he _
      exact ⟨he.entry, fun c hc => he.presented c (List.mem_filter.mp hc).1,
        fun client hmem hn hb => (List.length_filter_le _ _).trans (he.single client hmem hn hb)⟩
    · exact fun host e cursor he => ⟨he.entry, he.presented, he.single⟩

/-- The table of a server in static mode keeps the clients of the configuration apart. -/
structure TenantIsolated (cfg : ServerConfig) (as : List Action) (s : Server) : Prop where
  found : ∀ isOpen h r, (s.routes.lookup isOpen h).1 = some (.tunnel r) →
    ∃ entry ∈ cfg.hostnames, entry.host = h ∧ entry.client = r.clientName ∧
      entry.tlsMode = r.tlsMode ∧ ∃ client ∈ cfg.clients, client.name = entry.client ∧
        ∃ hello, .handler r.conn (.hello hello) ∈ as ∧ hello.token = client.token
  noTakeover : ∀ c g, s.handlers.lookup c = some (.installing g) →
    takeovers g.clientName g.balance c g.hostnames s.routes.inner = []
  single : ∀ entry ∈ cfg.hostnames, ∀ client ∈ cfg.clients, client.name = entry.client →
    client.balance = .lastWriteWins → ∀ e, s.routes.inner.lookup entry.host = some e →
      e.conns.length ≤ 1

/-- **Tenant isolation in static mode.**  A lookup that finds a tunnel finds one of the client the
configuration names for the host, in the configured mode, that showed this client's token; no
`install` takes a host over; and a client with last-write-wins never holds a host twice. -/
theorem static_tenant_isolation (hcfg : cfg.validate = .ok ())
    (hrun : Runs.run (step (staticAnswers cfg)) as (start cfg) = some s) :
    TenantIsolated cfg as s := by
  have hacc := ServerConfig.validate_ok hcfg
  have hconf := configured_run hacc.clients hrun
  have hunique : ∀ entry ∈ cfg.hostnames, ∀ entry' ∈ cfg.hostnames,
      entry.host = entry'.host → entry = entry' :=
    fun _ he _ he' hh => List.inj_on_of_nodup_map hacc.hostnames he he' hh
  refine ⟨?_, ?_, ?_⟩
  · intro isOpen h r hr
    obtain ⟨-, e, he, hn, hmode, hc, -⟩ := lookup_eq_tunnel hr
    obtain ⟨entry, hentry, hhost, hclient, htls⟩ := (hconf h e he).entry
    obtain ⟨client, hmem, hname, hello, hin, htoken⟩ := (hconf h e he).presented r.conn hc
    exact ⟨entry, hentry, hhost, hclient.trans hn.symm, htls.trans hmode.symm, client, hmem,
      hname.trans hclient.symm, hello, hin, htoken⟩
  · intro c g hph
    obtain ⟨hello, -, hg⟩ := admitClient_of_installing hrun hph
    obtain ⟨client, -, -, hname, -, hhosts⟩ := StaticBackend.admitClient_eq_some hg
    refine takeovers_eq_nil ?_
    intro p hp e he
    obtain ⟨entry, hentry, hcl, hhost, -⟩ := (hhosts p).mp hp
    obtain ⟨entry', hentry', hhost', hcl', -⟩ := (hconf p.1 e he).entry
    obtain rfl := hunique entry hentry entry' hentry' (hhost.trans hhost'.symm)
    rw [hname, ← hcl', hcl]
  · intro entry hentry client hmem hname hlww e he
    obtain ⟨entry', hentry', hhost', hcl', -⟩ := (hconf entry.host e he).entry
    obtain rfl := hunique entry' hentry' entry hentry hhost'
    exact (hconf entry'.host e he).single client hmem (hname.trans hcl') hlww

/-- Two clients, one of which replaces its tunnels while the other collects them. -/
def twoTenants : ServerConfig where
  clients := [⟨['a'], Vector.replicate 32 1, .lastWriteWins⟩, ⟨['b'], Vector.replicate 32 2, .roundRobin⟩]
  hostnames := [⟨['x'], ['a'], .terminated, none, none⟩, ⟨['y'], ['b'], .passthrough, none, none⟩]

/-- Each of the two clients connects twice. -/
def twoTenantsRun : List Action :=
  let ga : ClientGrant := ⟨['a'], .lastWriteWins, [(['x'], .terminated)]⟩
  let gb : ClientGrant := ⟨['b'], .roundRobin, [(['y'], .passthrough)]⟩
  comeUp (.nth 0) ⟨Vector.replicate 32 1, ['a']⟩ ga ++ comeUp (.nth 1) ⟨Vector.replicate 32 2, ['b']⟩ gb ++
    comeUp (.nth 2) ⟨Vector.replicate 32 1, ['a']⟩ ga ++ comeUp (.nth 3) ⟨Vector.replicate 32 2, ['a']⟩ gb

theorem static_tenant_isolation_two :
    twoTenants.validate = .ok () ∧
      ∃ s, Runs.run (step (staticAnswers twoTenants)) twoTenantsRun (start twoTenants) = some s ∧
        TenantIsolated twoTenants twoTenantsRun s := by
  have hrun : (Runs.run (step (staticAnswers twoTenants)) twoTenantsRun (start twoTenants)).isSome =
      true := by decide
  obtain ⟨s, hs⟩ := Option.isSome_iff_exists.mp hrun
  exact ⟨rfl, s, hs, static_tenant_isolation rfl hs⟩

end Server

end Tuyau
