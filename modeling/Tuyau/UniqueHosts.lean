import Tuyau.HostCerts

/-! # One entry for each host

The routing table and the map of certs are keyed by lower-case hosts, and `fromConfig` and
`HostCerts.load` fill them from the entries one after another: two entries with the same key would
leave one target, one cert and a mixture of their modes.  `Kept cfg entry` says that nothing of an
entry is lost in this way, and `kept_of_sole` that it holds where no other entry has the same key.

Validation compares the hosts as they are written.  **`unique_hosts_iff`** says what this misses: an
accepted static configuration keeps all entries exactly if no two of its hosts differ in letter case
only; an accepted dynamic one keeps its upstreams exactly if this holds of the hosts of the upstreams
and no tunnel hostname is one of them, which dynamic validation does not look at. -/

namespace Tuyau

open AsciiText RoutingTable

/-- The host of an entry, as it is written. -/
def ConfigEntry.host : ConfigEntry → Text
  | .hostname e => e.host
  | .upstream u => u.host

namespace ServerConfig

/-- All entries that route hosts. -/
def entries (cfg : ServerConfig) : List ConfigEntry :=
  cfg.hostnames.map .hostname ++ cfg.upstreams.map .upstream

/-- The routing table of the configuration. -/
def table (cfg : ServerConfig) : RoutingTable := fromConfig cfg.hostnames cfg.upstreams

/-- Hosts that agree up to letter case are written alike. -/
def SpelledAlike (hosts : List Text) : Prop :=
  ∀ a ∈ hosts, ∀ b ∈ hosts, toAsciiLowercase a = toAsciiLowercase b → a = b

/-- No host is both a tunnel host and an upstream. -/
def Disjoint (cfg : ServerConfig) : Prop :=
  ∀ e ∈ cfg.hostnames, ∀ u ∈ cfg.upstreams, toAsciiLowercase e.host ≠ toAsciiLowercase u.host

/-- Nothing of an entry is dropped or overwritten. -/
structure Kept (cfg : ServerConfig) (entry : ConfigEntry) : Prop where
  terminated : cfg.table.isTerminated entry.host = entry.tlsMode.terminates
  offload : cfg.table.isOffload entry.host = decide (entry.tlsMode = .tlsOffload)
  cert : ∀ (ε κ : Type) (loadChain : CertFiles → Except ε κ) (certs : HostCerts κ),
    HostCerts.load loadChain cfg = .ok certs →
      certs.map.lookup (toAsciiLowercase entry.host) = entry.cert loadChain
  target : ∀ u, entry = .upstream u → ∃ target, u.target = some target ∧
    ∀ isOpen, (cfg.table.lookup isOpen u.host).1 = some (.localTo target)

/-- Static validation made the hosts of all entries unique. -/
structure UniqueHosts (cfg : ServerConfig) : Prop where
  distinct : cfg.HostsDistinct
  kept : ∀ entry ∈ cfg.entries, cfg.Kept entry
  disjoint : cfg.Disjoint

/-- Dynamic validation made the hosts of the upstreams unique. -/
structure UniqueUpstreams (cfg : ServerConfig) : Prop where
  distinct : cfg.UpstreamsDistinct
  kept : ∀ u ∈ cfg.upstreams, cfg.Kept (.upstream u)
  disjoint : cfg.Disjoint

/-- No other entry has the host of this one, up to letter case. -/
structure Sole (cfg : ServerConfig) (entry : ConfigEntry) : Prop where
  mem : entry ∈ cfg.entries
  eq : ∀ entry' ∈ cfg.entries, toAsciiLowercase entry'.host = toAsciiLowercase entry.host → entry' = entry

variable {cfg : ServerConfig} {entry : ConfigEntry}

theorem upstream_mem_entries {u : UpstreamEntry} : .upstream u ∈ cfg.entries ↔ u ∈ cfg.upstreams := by
  simp [entries]

theorem hostname_mem_entries {e : HostnameEntry} : .hostname e ∈ cfg.entries ↔ e ∈ cfg.hostnames := by
  simp [entries]

theorem hostCerts_eq_map (cfg : ServerConfig) : cfg.hostCerts = cfg.entries.map ConfigEntry.row := by
  simp only [hostCerts, entries, List.map_append, List.map_map]
  rfl

theorem row_host (entry : ConfigEntry) : entry.row.1 = entry.host := by
  cases entry <;> rfl

/-! ### An entry whose host is its own -/

/-- The hosts with a mode, at the host of a sole entry. -/
theorem mem_hostsWith_of_sole (h : cfg.Sole entry) {test : TlsMode → Bool} :
    toAsciiLowercase entry.host ∈ hostsWith test cfg.hostnames cfg.upstreams ↔
      test entry.tlsMode = true := by
  rw [mem_hostsWith]
  constructor
  · rintro (⟨e, he, htest, hname⟩ | ⟨u, hu, htest, hname⟩)
    · obtain rfl := h.eq (.hostname e) (hostname_mem_entries.mpr he) hname
      exact htest
    · obtain rfl := h.eq (.upstream u) (upstream_mem_entries.mpr hu) hname
      exact htest
  · intro htest
    cases entry with
    | hostname e => exact .inl ⟨e, hostname_mem_entries.mp h.mem, htest, rfl⟩
    | upstream u => exact .inr ⟨u, upstream_mem_entries.mp h.mem, htest, rfl⟩

theorem ownCert_row {ε κ : Type} (loadChain : CertFiles → Except ε κ) (entry : ConfigEntry) :
    ownCert loadChain entry.row =
      (entry.cert loadChain).map fun certified => (toAsciiLowercase entry.host, certified) := by
  rw [ownCert, ConfigEntry.certFiles_row, row_host, ConfigEntry.cert, Option.map_bind]
  rfl

/-- The cert of a sole entry is the one the map holds. -/
theorem lookup_certs_of_sole (h : cfg.Sole entry) {ε κ : Type} {loadChain : CertFiles → Except ε κ}
    {certs : HostCerts κ} (hload : HostCerts.load loadChain cfg = .ok certs) :
    certs.map.lookup (toAsciiLowercase entry.host) = entry.cert loadChain := by
  obtain ⟨-, hmap⟩ := HostCerts.load_ok hload
  rw [hmap]
  refine AssocMap.lookup_collect_of_unique fun certified => ?_
  rw [List.mem_filterMap, hostCerts_eq_map]
  constructor
  · rintro ⟨row, hrow, hown⟩
    obtain ⟨entry', hentry', rfl⟩ := List.mem_map.mp hrow
    rw [ownCert_row] at hown
    obtain ⟨certified', hcert, heq⟩ := Option.map_eq_some_iff.mp hown
    obtain ⟨hname, rfl⟩ := Prod.mk.inj heq
    rwa [h.eq entry' hentry' hname] at hcert
  · intro hcert
    exact ⟨entry.row, List.mem_map_of_mem h.mem, by rw [ownCert_row, hcert]; rfl⟩

/-- **A sole entry is kept.** -/
theorem kept_of_sole (hd : cfg.UpstreamsDistinct) (ht : cfg.HasTargets) (h : cfg.Sole entry) :
    cfg.Kept entry := by
  have hlocal : ∀ u, entry = .upstream u → ∃ target, u.target = some target ∧
      cfg.table.locals.lookup (toAsciiLowercase u.host) = some ⟨target, u.tlsMode⟩ := by
    rintro u rfl
    have hu := upstream_mem_entries.mp h.mem
    obtain ⟨target, htarget⟩ := Option.isSome_iff_exists.mp (UpstreamEntry.target_isSome (ht u hu))
    refine ⟨target, htarget, ?_⟩
    rw [table, lookup_locals hd ht, (upstreamAt_eq_some hd).mpr ⟨hu, rfl⟩, Option.bind_some,
      UpstreamEntry.resolved, htarget, Option.map_some]
  have hnamed : cfg.table.named (toAsciiLowercase entry.host) := by
    cases entry with
    | hostname e =>
        exact .inr (.inl (List.mem_toFinset.mpr (List.mem_map_of_mem (hostname_mem_entries.mp h.mem))))
    | upstream u =>
        obtain ⟨target, -, hl⟩ := hlocal u rfl
        exact .inl (AList.lookup_isSome.mp (Option.isSome_iff_exists.mpr ⟨_, hl⟩))
  refine ⟨?_, ?_, fun ε κ loadChain certs hload => lookup_certs_of_sole h hload, fun u hu => ?_⟩
  · rw [(mode_of_named hnamed).1, Bool.eq_iff_iff, decide_eq_true_eq]
    exact List.mem_toFinset.trans (mem_hostsWith_of_sole h)
  · rw [(mode_of_named hnamed).2, Bool.eq_iff_iff, decide_eq_true_eq]
    exact List.mem_toFinset.trans (mem_hostsWith_of_sole h)
  · obtain ⟨target, htarget, hl⟩ := hlocal u hu
    refine ⟨target, htarget, fun isOpen => lookup_eq_localTo.mpr ⟨⟨target, u.tlsMode⟩, ?_, rfl⟩⟩
    rw [upstream, hl, Option.some_or]

/-! ### What validation leaves open -/

/-- The hosts of all entries, as they are written. -/
def hosts (cfg : ServerConfig) : List Text := cfg.entries.map ConfigEntry.host

theorem hosts_eq (cfg : ServerConfig) :
    cfg.hosts = cfg.hostnames.map HostnameEntry.host ++ cfg.upstreams.map UpstreamEntry.host := by
  simp only [hosts, entries, List.map_append, List.map_map]
  rfl

theorem hostsDistinct_iff_map : cfg.HostsDistinct ↔ (cfg.hosts.map toAsciiLowercase).Nodup := by
  rw [hosts_eq, List.map_append, List.map_map, List.map_map]
  rfl

theorem upstreamsDistinct_iff_map :
    cfg.UpstreamsDistinct ↔ ((cfg.upstreams.map UpstreamEntry.host).map toAsciiLowercase).Nodup := by
  rw [List.map_map]
  rfl

/-- Static validation makes the hosts unique as they are written. -/
theorem Accepted.nodup_hosts (h : cfg.Accepted) : cfg.hosts.Nodup := by
  rw [hosts_eq, List.nodup_append]
  refine ⟨h.hostnames, h.upstreams, ?_⟩
  rintro _ he _ hu rfl
  obtain ⟨e, he', heq⟩ := List.mem_map.mp he
  obtain ⟨u, hu', rfl⟩ := List.mem_map.mp hu
  exact h.disjoint u hu' e he' heq.symm

/-- Where all hosts are distinct, every entry is a sole one. -/
theorem sole_of_hostsDistinct (hd : cfg.HostsDistinct) (hentry : entry ∈ cfg.entries) : cfg.Sole entry := by
  have hnodup : (cfg.entries.map fun entry => toAsciiLowercase entry.host).Nodup := by
    rw [hostsDistinct_iff_map, hosts, List.map_map] at hd
    exact hd
  exact ⟨hentry, fun entry' hentry' heq => List.inj_on_of_nodup_map hnodup hentry' hentry heq⟩

/-- Where the upstreams are distinct and no tunnel hostname is one of them, every upstream is a sole
entry. -/
theorem sole_of_upstreamsDistinct (hd : cfg.UpstreamsDistinct) (hdisjoint : cfg.Disjoint)
    {u : UpstreamEntry} (hu : u ∈ cfg.upstreams) : cfg.Sole (.upstream u) := by
  refine ⟨upstream_mem_entries.mpr hu, fun entry' hentry' heq => ?_⟩
  cases entry' with
  | hostname e => exact absurd heq (hdisjoint e (hostname_mem_entries.mp hentry') u hu)
  | upstream u' =>
      rw [List.inj_on_of_nodup_map hd (upstream_mem_entries.mp hentry') hu heq]

/-- **When validation makes hosts unique in the namespace of the routing table.**  In static mode: if
no two hosts differ in letter case only.  In dynamic mode: if no two hosts of upstreams do, and no
tunnel hostname is the host of an upstream up to letter case. -/
theorem unique_hosts_iff (cfg : ServerConfig) :
    (cfg.validate = .ok () → (cfg.UniqueHosts ↔ SpelledAlike cfg.hosts)) ∧
      (cfg.validateDynamic = .ok () →
        (cfg.UniqueUpstreams ↔
          SpelledAlike (cfg.upstreams.map UpstreamEntry.host) ∧ cfg.Disjoint)) := by
  constructor
  · intro hvalid
    have haccepted := validate_ok hvalid
    have hiff : cfg.HostsDistinct ↔ SpelledAlike cfg.hosts :=
      hostsDistinct_iff_map.trans (List.nodup_map_iff_inj_on haccepted.nodup_hosts)
    rw [← hiff]
    constructor
    · exact UniqueHosts.distinct
    · intro hd
      refine ⟨hd, fun entry hentry => ?_, fun e he u hu => hd.disjoint he hu⟩
      exact kept_of_sole hd.upstreams haccepted.targets (sole_of_hostsDistinct hd hentry)
  · intro hvalid
    obtain ⟨hnodup, htargets⟩ := validateDynamic_ok hvalid
    have hiff : cfg.UpstreamsDistinct ↔ SpelledAlike (cfg.upstreams.map UpstreamEntry.host) :=
      upstreamsDistinct_iff_map.trans (List.nodup_map_iff_inj_on hnodup)
    rw [← hiff]
    constructor
    · exact fun h => ⟨h.distinct, h.disjoint⟩
    · rintro ⟨hd, hdisjoint⟩
      refine ⟨hd, fun u hu => ?_, hdisjoint⟩
      exact kept_of_sole hd htargets (sole_of_upstreamsDistinct hd hdisjoint hu)

end ServerConfig

/-- A tunnel hostname and an upstream, with names of their own. -/
def twoNames : ServerConfig where
  clients := [⟨['a'], Vector.replicate 32 1, .roundRobin⟩]
  hostnames := [⟨"App".toList, ['a'], .passthrough, none, none⟩]
  upstreams := [{ host := "api".toList, localAddr := some (.v4 127 0 0 1 8080) }]

theorem unique_hosts_two : twoNames.validate = .ok () ∧ twoNames.validateDynamic = .ok () ∧
    twoNames.UniqueHosts ∧ twoNames.UniqueUpstreams := by
  have halike : ServerConfig.SpelledAlike twoNames.hosts := by
    intro a ha b hb
    simp only [ServerConfig.hosts_eq, twoNames, List.map_cons, List.map_nil, List.cons_append,
      List.nil_append, List.mem_cons, List.not_mem_nil, or_false] at ha hb
    rcases ha with rfl | rfl <;> rcases hb with rfl | rfl <;> decide
  have halike' : ServerConfig.SpelledAlike (twoNames.upstreams.map UpstreamEntry.host) := by
    intro a ha b hb
    rw [ServerConfig.hosts_eq] at halike
    exact halike a (List.mem_append_right _ ha) b (List.mem_append_right _ hb)
  have hdisjoint : twoNames.Disjoint := by
    intro e he u hu
    obtain rfl := List.mem_singleton.mp he
    obtain rfl := List.mem_singleton.mp hu
    decide
  exact ⟨by decide, by decide, ((ServerConfig.unique_hosts_iff twoNames).1 (by decide)).mpr halike,
    ((ServerConfig.unique_hosts_iff twoNames).2 (by decide)).mpr ⟨halike', hdisjoint⟩⟩

/-- Two upstreams with one name, in two spellings. -/
def twoSpellings : ServerConfig where
  upstreams := [{ host := "App".toList, localAddr := some (.v4 127 0 0 1 8080) },
    { host := "app".toList, localAddr := some (.v4 127 0 0 1 9090), tlsMode := .passthrough }]

/-- Both validations accept the two spellings; the table keeps the target of the second and terminates
TLS for both. -/
theorem not_unique_hosts : twoSpellings.validate = .ok () ∧ twoSpellings.validateDynamic = .ok () ∧
    ¬ twoSpellings.UniqueHosts ∧ ¬ twoSpellings.UniqueUpstreams ∧
    (twoSpellings.table.lookup (fun _ => true) "App".toList).1 =
      some (.localTo (.tcp (.v4 127 0 0 1 9090))) ∧
    twoSpellings.table.isTerminated "app".toList = true := by
  have hdup : ¬ twoSpellings.UpstreamsDistinct := by
    unfold ServerConfig.UpstreamsDistinct
    decide
  exact ⟨by decide, by decide, fun h => hdup h.distinct.upstreams, fun h => hdup h.distinct, by decide,
    by decide⟩

end Tuyau
