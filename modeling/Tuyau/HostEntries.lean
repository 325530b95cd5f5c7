import Tuyau.Routes

/-! # Which entry of the configuration serves a host

The routing table answers three questions about a host from maps and sets that `fromConfig` fills:
whether TLS is terminated for it, whether its plaintext is piped, and which upstream it goes to.
Here the same is said in terms of the configuration itself: `routingEntry cfg h` is the entry that
routes `h`, which is the exact upstream or hostname up to letter case, else the upstream
`*.parent`, else the upstream `*`.

`lookup_locals` reads the map of upstreams back as a search through the configuration, and
`mem_hostsWith` the two sets of hosts.  For a table whose tunnels serve only configured hostnames
(`StaticTable`) the answers are those of `routingEntry`, whatever tunnels are connected
(`isTerminated_static`, `isOffload_static`, `upstream_static`): no table query depends on the
tunnels that come and go. -/

namespace Tuyau

open AsciiText

namespace ServerConfig

/-- The upstream whose host is `pattern` up to letter case. -/
def upstreamAt (cfg : ServerConfig) (pattern : Text) : Option UpstreamEntry :=
  cfg.upstreams.find? fun u => toAsciiLowercase u.host = pattern

/-- The tunnel hostname that is `name` up to letter case. -/
def hostnameAt (cfg : ServerConfig) (name : Text) : Option HostnameEntry :=
  cfg.hostnames.find? fun e => toAsciiLowercase e.host = name

/-- The hosts of the upstreams are distinct up to letter case. -/
def UpstreamsDistinct (cfg : ServerConfig) : Prop :=
  (cfg.upstreams.map fun u => toAsciiLowercase u.host).Nodup

/-- All hosts are distinct up to letter case. -/
def HostsDistinct (cfg : ServerConfig) : Prop :=
  ((cfg.hostnames.map fun e => toAsciiLowercase e.host) ++
    cfg.upstreams.map fun u => toAsciiLowercase u.host).Nodup

instance (cfg : ServerConfig) : Decidable cfg.HostsDistinct := inferInstanceAs (Decidable (List.Nodup _))

variable {cfg : ServerConfig} {name : Text}

theorem HostsDistinct.upstreams (h : cfg.HostsDistinct) : cfg.UpstreamsDistinct :=
  (List.nodup_append.mp h).2.1

theorem HostsDistinct.disjoint (h : cfg.HostsDistinct) {e : HostnameEntry} (he : e ∈ cfg.hostnames)
    {u : UpstreamEntry} (hu : u ∈ cfg.upstreams) : toAsciiLowercase e.host ≠ toAsciiLowercase u.host :=
  (List.nodup_append.mp h).2.2 _ (List.mem_map_of_mem he) _ (List.mem_map_of_mem hu)

theorem upstreamAt_eq_some (h : cfg.UpstreamsDistinct) {u : UpstreamEntry} :
    cfg.upstreamAt name = some u ↔ u ∈ cfg.upstreams ∧ toAsciiLowercase u.host = name := by
  constructor
  · intro hu
    exact ⟨List.mem_of_find?_eq_some hu, by simpa using List.find?_some hu⟩
  · rintro ⟨hu, hname⟩
    cases hf : cfg.upstreamAt name with
    | none => exact absurd hname (by simpa using List.find?_eq_none.mp hf u hu)
    | some u' =>
        have hu' := List.mem_of_find?_eq_some hf
        have hname' : toAsciiLowercase u'.host = name := by simpa using List.find?_some hf
        rw [List.inj_on_of_nodup_map h hu' hu (hname'.trans hname.symm)]

theorem hostnameAt_eq_some (h : cfg.HostsDistinct) {e : HostnameEntry} :
    cfg.hostnameAt name = some e ↔ e ∈ cfg.hostnames ∧ toAsciiLowercase e.host = name := by
  constructor
  · intro he
    exact ⟨List.mem_of_find?_eq_some he, by simpa using List.find?_some he⟩
  · rintro ⟨he, hname⟩
    cases hf : cfg.hostnameAt name with
    | none => exact absurd hname (by simpa using List.find?_eq_none.mp hf e he)
    | some e' =>
        have he' := List.mem_of_find?_eq_some hf
        have hname' : toAsciiLowercase e'.host = name := by simpa using List.find?_some hf
        rw [List.inj_on_of_nodup_map (List.nodup_append.mp h).1 he' he (hname'.trans hname.symm)]

theorem upstreamAt_eq_none :
    cfg.upstreamAt name = none ↔ ∀ u ∈ cfg.upstreams, toAsciiLowercase u.host ≠ name := by
  simp [upstreamAt]

theorem hostnameAt_eq_none :
    cfg.hostnameAt name = none ↔ ∀ e ∈ cfg.hostnames, toAsciiLowercase e.host ≠ name := by
  simp [hostnameAt]

end ServerConfig

/-- An upstream that names a target has one. -/
theorem UpstreamEntry.target_isSome {u : UpstreamEntry} (h : u.localAddr.isSome ≠ u.localSocket.isSome) :
    u.target.isSome := by
  cases ha : u.localAddr <;> cases hs : u.localSocket <;> simp_all [UpstreamEntry.target]

/-- The local upstream an entry stands for in the table. -/
def UpstreamEntry.resolved (u : UpstreamEntry) : Option LocalUpstream :=
  u.target.map fun target => ⟨target, u.tlsMode⟩

namespace RoutingTable

variable {cfg : ServerConfig}

/-! ### The map of upstreams -/

theorem keys_localUpstream_sublist (l : List UpstreamEntry) :
    ((l.filterMap UpstreamEntry.localUpstream).map Prod.fst).Sublist
      (l.map fun u => toAsciiLowercase u.host) := by
  induction l with
  | nil => exact List.Sublist.refl _
  | cons u l ih =>
      rw [List.filterMap_cons, List.map_cons]
      cases ht : u.target with
      | none => simpa [UpstreamEntry.localUpstream, ht] using ih.cons _
      | some target => simpa [UpstreamEntry.localUpstream, ht] using ih

/-- The map of upstreams is a search through the configuration. -/
theorem lookup_locals (hd : cfg.UpstreamsDistinct) (ht : cfg.HasTargets) (pattern : Text) :
    (fromConfig cfg.hostnames cfg.upstreams).locals.lookup pattern =
      (cfg.upstreamAt pattern).bind UpstreamEntry.resolved := by
  have hkeys : ((cfg.upstreams.filterMap UpstreamEntry.localUpstream).map Prod.fst).Nodup :=
    List.Nodup.sublist (keys_localUpstream_sublist _) hd
  cases hu : cfg.upstreamAt pattern with
  | none =>
      refine AssocMap.lookup_collect_eq_none.mpr fun hin => ?_
      obtain ⟨u, hmem, hname⟩ := List.mem_map.mp ((keys_localUpstream_sublist _).subset hin)
      exact ServerConfig.upstreamAt_eq_none.mp hu u hmem hname
  | some u =>
      obtain ⟨hmem, rfl⟩ := (ServerConfig.upstreamAt_eq_some hd).mp hu
      obtain ⟨target, htarget⟩ := Option.isSome_iff_exists.mp (UpstreamEntry.target_isSome (ht u hmem))
      have hpair : (toAsciiLowercase u.host, ⟨target, u.tlsMode⟩) ∈
          cfg.upstreams.filterMap UpstreamEntry.localUpstream :=
        List.mem_filterMap.mpr ⟨u, hmem, by simp [UpstreamEntry.localUpstream, htarget]⟩
      rw [Option.bind_some, UpstreamEntry.resolved, htarget]
      exact AssocMap.lookup_collect_of_nodup hkeys hpair

theorem mem_hostsWith {test : TlsMode → Bool} {hostnames : List HostnameEntry}
    {upstreams : List UpstreamEntry} {name : Text} :
    name ∈ hostsWith test hostnames upstreams ↔
      (∃ e ∈ hostnames, test e.tlsMode = true ∧ toAsciiLowercase e.host = name) ∨
        ∃ u ∈ upstreams, test u.tlsMode = true ∧ toAsciiLowercase u.host = name := by
  simp [hostsWith, and_assoc]

theorem toAsciiLowercase_of_mem_hostsWith {test : TlsMode → Bool} {hostnames : List HostnameEntry}
    {upstreams : List UpstreamEntry} {name : Text} (h : name ∈ hostsWith test hostnames upstreams) :
    toAsciiLowercase name = name := by
  obtain ⟨e, -, -, rfl⟩ | ⟨u, -, -, rfl⟩ := mem_hostsWith.mp h
  · exact toAsciiLowercase_idem _
  · exact toAsciiLowercase_idem _

end RoutingTable

/-! ### The entry that routes a host -/

/-- An entry of the configuration that routes hosts. -/
inductive ConfigEntry where
  | hostname (e : HostnameEntry)
  | upstream (u : UpstreamEntry)

def ConfigEntry.tlsMode : ConfigEntry → TlsMode
  | .hostname e => e.tlsMode
  | .upstream u => u.tlsMode

namespace ServerConfig

/-- The upstream or hostname that is `name` up to letter case. -/
def exactEntry (cfg : ServerConfig) (name : Text) : Option ConfigEntry :=
  ((cfg.upstreamAt name).map .upstream).or ((cfg.hostnameAt name).map .hostname)

/-- The pattern that covers `name` and its siblings: `*.` and what follows its first dot. -/
def parentPattern (name : Text) : Option Text := (splitOnce '.' name).map fun p => '*' :: '.' :: p.2

/-- The upstream `*.parent` of `name`, else the upstream `*`. -/
def wildcardEntry (cfg : ServerConfig) (name : Text) : Option UpstreamEntry :=
  ((parentPattern name).bind cfg.upstreamAt).or (cfg.upstreamAt ['*'])

/-- The entry that routes `h`. -/
def routingEntry (cfg : ServerConfig) (h : Text) : Option ConfigEntry :=
  (cfg.exactEntry (toAsciiLowercase h)).or ((cfg.wildcardEntry (toAsciiLowercase h)).map .upstream)

variable {cfg : ServerConfig} {name : Text}

/-- The exact entry of a name, where all hosts are distinct. -/
theorem exactEntry_eq_some (hd : cfg.HostsDistinct) {entry : ConfigEntry} :
    cfg.exactEntry name = some entry ↔
      (∃ u ∈ cfg.upstreams, toAsciiLowercase u.host = name ∧ entry = .upstream u) ∨
        ∃ e ∈ cfg.hostnames, toAsciiLowercase e.host = name ∧ entry = .hostname e := by
  cases hu : cfg.upstreamAt name with
  | some u =>
      obtain ⟨hmem, hname⟩ := (upstreamAt_eq_some hd.upstreams).mp hu
      simp only [exactEntry, hu, Option.map_some, Option.some_or, Option.some.injEq]
      constructor
      · rintro rfl
        exact .inl ⟨u, hmem, hname, rfl⟩
      · rintro (⟨u', hmem', hname', rfl⟩ | ⟨e, he, hname', rfl⟩)
        · have h' := (upstreamAt_eq_some hd.upstreams).mpr ⟨hmem', hname'⟩
          rw [hu] at h'
          rw [Option.some.inj h']
        · exact absurd (hname'.trans hname.symm) (hd.disjoint he hmem)
  | none =>
      simp only [exactEntry, hu, Option.map_none, Option.none_or, Option.map_eq_some_iff]
      constructor
      · rintro ⟨e, he, rfl⟩
        obtain ⟨hmem, hname⟩ := (hostnameAt_eq_some hd).mp he
        exact .inr ⟨e, hmem, hname, rfl⟩
      · rintro (⟨u, hmem, hname, -⟩ | ⟨e, he, hname, rfl⟩)
        · exact absurd hname (upstreamAt_eq_none.mp hu u hmem)
        · exact ⟨e, (hostnameAt_eq_some hd).mpr ⟨he, hname⟩, rfl⟩

theorem mem_of_wildcardEntry {u : UpstreamEntry} (h : cfg.wildcardEntry name = some u) :
    u ∈ cfg.upstreams := by
  rcases Option.or_eq_some_iff.mp h with hp | ⟨-, hstar⟩
  · obtain ⟨pattern, -, hp⟩ := Option.bind_eq_some_iff.mp hp
    exact List.mem_of_find?_eq_some hp
  · exact List.mem_of_find?_eq_some hstar

/-- An upstream that routes a host is one of the configuration. -/
theorem mem_of_routingEntry {h : Text} {u : UpstreamEntry} (hentry : cfg.routingEntry h = some (.upstream u)) :
    u ∈ cfg.upstreams := by
  rcases Option.or_eq_some_iff.mp hentry with hexact | ⟨-, hw⟩
  · rcases Option.or_eq_some_iff.mp hexact with hu | ⟨-, he⟩
    · obtain ⟨u', hu', heq⟩ := Option.map_eq_some_iff.mp hu
      obtain rfl := ConfigEntry.upstream.inj heq
      exact List.mem_of_find?_eq_some hu'
    · obtain ⟨e, -, heq⟩ := Option.map_eq_some_iff.mp he
      cases heq
  · obtain ⟨u', hu', heq⟩ := Option.map_eq_some_iff.mp hw
    obtain rfl := ConfigEntry.upstream.inj heq
    exact mem_of_wildcardEntry hu'

theorem exactEntry_eq_none :
    cfg.exactEntry name = none ↔ (∀ u ∈ cfg.upstreams, toAsciiLowercase u.host ≠ name) ∧
      ∀ e ∈ cfg.hostnames, toAsciiLowercase e.host ≠ name := by
  rw [exactEntry, Option.or_eq_none_iff, Option.map_eq_none_iff, Option.map_eq_none_iff,
    upstreamAt_eq_none, hostnameAt_eq_none]

end ServerConfig

namespace RoutingTable

variable {cfg : ServerConfig} {t : RoutingTable} {name h : Text}

/-- A set of hosts by mode, read off the exact entry of a name. -/
theorem mem_hostsWith_iff (hd : cfg.HostsDistinct) {test : TlsMode → Bool} :
    name ∈ hostsWith test cfg.hostnames cfg.upstreams ↔
      (cfg.exactEntry name).any (fun entry => test entry.tlsMode) = true := by
  rw [mem_hostsWith, Option.any_eq_true]
  constructor
  · rintro (⟨e, he, htest, hname⟩ | ⟨u, hu, htest, hname⟩)
    · exact ⟨.hostname e, (ServerConfig.exactEntry_eq_some hd).mpr (.inr ⟨e, he, hname, rfl⟩), htest⟩
    · exact ⟨.upstream u, (ServerConfig.exactEntry_eq_some hd).mpr (.inl ⟨u, hu, hname, rfl⟩), htest⟩
  · rintro ⟨entry, hentry, htest⟩
    rcases (ServerConfig.exactEntry_eq_some hd).mp hentry with ⟨u, hu, hname, rfl⟩ | ⟨e, he, hname, rfl⟩
    · exact .inr ⟨u, hu, htest, hname⟩
    · exact .inl ⟨e, he, htest, hname⟩

/-- The search through the wildcard patterns of a name. -/
theorem findSome_hostPatterns (hd : cfg.UpstreamsDistinct) (ht : cfg.HasTargets) :
    ((hostPatterns name).drop 1).findSome?
        (fun pattern => (fromConfig cfg.hostnames cfg.upstreams).locals.lookup pattern) =
      (cfg.wildcardEntry name).bind UpstreamEntry.resolved := by
  have hresolved : ∀ {pattern u}, cfg.upstreamAt pattern = some u → u.resolved.isSome := by
    intro pattern u hu
    rw [UpstreamEntry.resolved, Option.isSome_map]
    exact UpstreamEntry.target_isSome (ht u ((ServerConfig.upstreamAt_eq_some hd).mp hu).1)
  cases hs : splitOnce '.' name with
  | none =>
      simp [hostPatterns, hs, ServerConfig.wildcardEntry, ServerConfig.parentPattern,
        lookup_locals hd ht]
  | some p =>
      simp only [hostPatterns, hs, List.cons_append, List.drop_one,
        List.tail_cons, List.findSome?_cons, List.nil_append, ServerConfig.wildcardEntry,
        ServerConfig.parentPattern, Option.map_some, Option.bind_some, lookup_locals hd ht]
      cases hp : cfg.upstreamAt ('*' :: '.' :: p.2) with
      | none =>
          simp only [Option.bind_none, Option.none_or, List.findSome?_nil]
          cases (cfg.upstreamAt ['*']).bind UpstreamEntry.resolved <;> rfl
      | some u =>
          obtain ⟨up, hup⟩ := Option.isSome_iff_exists.mp (hresolved hp)
          simp [hup]

/-- A table of the configuration whose tunnels serve configured hostnames as configured. -/
structure StaticTable (cfg : ServerConfig) (t : RoutingTable) : Prop where
  config : SameConfig (fromConfig cfg.hostnames cfg.upstreams) t
  entries : ∀ h e, t.inner.lookup h = some e → ∃ entry ∈ cfg.hostnames,
    entry.host = h ∧ entry.client = e.clientName ∧ entry.tlsMode = e.tlsMode

/-- The exact entries of a static table are those of the configuration, for lower-case names. -/
theorem named_static (hd : cfg.HostsDistinct) (ht : cfg.HasTargets) (hst : StaticTable cfg t)
    (hlower : toAsciiLowercase name = name) : t.named name ↔ (cfg.exactEntry name).isSome := by
  obtain ⟨inner, rfl⟩ := hst.config
  rw [← not_iff_not, Bool.not_eq_true, Option.isSome_eq_false_iff, Option.isNone_iff_eq_none]
  constructor
  · intro hn
    refine ServerConfig.exactEntry_eq_none.mpr ⟨fun u hu hname => hn (.inl ?_), fun e he hname =>
      hn (.inr (.inl ?_))⟩
    · rw [← AList.lookup_isSome]
      rw [lookup_locals hd.upstreams ht,
        (ServerConfig.upstreamAt_eq_some hd.upstreams).mpr ⟨hu, hname⟩, Option.bind_some,
        UpstreamEntry.resolved, Option.isSome_map]
      exact UpstreamEntry.target_isSome (ht u hu)
    · exact List.mem_toFinset.mpr (hname ▸ List.mem_map_of_mem he)
  · intro hnone hn
    obtain ⟨hups, hhosts⟩ := ServerConfig.exactEntry_eq_none.mp hnone
    rcases hn with hloc | htun | hterm | hinner
    · rw [← AList.lookup_isSome, lookup_locals hd.upstreams ht,
        ServerConfig.upstreamAt_eq_none.mpr hups] at hloc
      cases hloc
    · obtain ⟨e, he, hname⟩ := List.mem_map.mp (List.mem_toFinset.mp htun)
      exact hhosts e he hname
    · have hany := (mem_hostsWith_iff hd).mp (List.mem_toFinset.mp hterm)
      rw [hnone] at hany
      cases hany
    · obtain ⟨e, he⟩ := Option.isSome_iff_exists.mp (AList.lookup_isSome.mpr hinner)
      obtain ⟨entry, hentry, hhost, -⟩ := hst.entries name e he
      exact hhosts entry hentry (by rw [hhost, hlower])

theorem wildcardUpstream_static (hd : cfg.HostsDistinct) (ht : cfg.HasTargets)
    (hst : StaticTable cfg t) (hlower : toAsciiLowercase name = name) :
    t.wildcardUpstream name = if (cfg.exactEntry name).isSome then none
      else (cfg.wildcardEntry name).bind UpstreamEntry.resolved := by
  rw [wildcardUpstream]
  simp only [named_static hd ht hst hlower]
  split_ifs
  · rfl
  · obtain ⟨inner, rfl⟩ := hst.config
    exact findSome_hostPatterns hd.upstreams ht

/-- The upstream of a host in a static table is that of the entry that routes it. -/
theorem upstream_static (hd : cfg.HostsDistinct) (ht : cfg.HasTargets) (hst : StaticTable cfg t) :
    t.upstream h = (cfg.routingEntry h).bind fun
      | .upstream u => u.resolved
      | .hostname _ => none := by
  have hlocal : t.locals.lookup (toAsciiLowercase h) =
      (cfg.upstreamAt (toAsciiLowercase h)).bind UpstreamEntry.resolved := by
    obtain ⟨inner, rfl⟩ := hst.config
    exact lookup_locals hd.upstreams ht _
  rw [upstream, wildcardUpstream_static hd ht hst (toAsciiLowercase_idem h), hlocal,
    ServerConfig.routingEntry, ServerConfig.exactEntry]
  cases hu : cfg.upstreamAt (toAsciiLowercase h) with
  | some u => simp
  | none =>
      cases cfg.hostnameAt (toAsciiLowercase h) with
      | some e => simp
      | none => cases cfg.wildcardEntry (toAsciiLowercase h) <;> simp

/-- A mode set and the wildcard together are the mode of the entry that routes the host. -/
theorem mode_static (hd : cfg.HostsDistinct) (ht : cfg.HasTargets) (hst : StaticTable cfg t)
    (test : TlsMode → Bool) :
    (decide (toAsciiLowercase h ∈ (hostsWith test cfg.hostnames cfg.upstreams).toFinset) ||
        (t.wildcardUpstream (toAsciiLowercase h)).any fun up => test up.tlsMode) =
      (cfg.routingEntry h).any fun entry => test entry.tlsMode := by
  rw [wildcardUpstream_static hd ht hst (toAsciiLowercase_idem h), ServerConfig.routingEntry]
  simp only [List.mem_toFinset, mem_hostsWith_iff hd]
  cases hexact : cfg.exactEntry (toAsciiLowercase h) with
  | some entry => simp
  | none =>
      cases hw : cfg.wildcardEntry (toAsciiLowercase h) with
      | none => simp
      | some u =>
          have hmem := ServerConfig.mem_of_wildcardEntry hw
          obtain ⟨target, htarget⟩ :=
            Option.isSome_iff_exists.mp (UpstreamEntry.target_isSome (ht u hmem))
          simp [UpstreamEntry.resolved, htarget, ConfigEntry.tlsMode]

theorem isTerminated_static (hd : cfg.HostsDistinct) (ht : cfg.HasTargets) (hst : StaticTable cfg t) :
    t.isTerminated h = (cfg.routingEntry h).any fun entry => entry.tlsMode.terminates := by
  rw [← mode_static hd ht hst TlsMode.terminates, isTerminated]
  obtain ⟨inner, rfl⟩ := hst.config
  rfl

theorem isOffload_static (hd : cfg.HostsDistinct) (ht : cfg.HasTargets) (hst : StaticTable cfg t) :
    t.isOffload h = (cfg.routingEntry h).any fun entry => entry.tlsMode = .tlsOffload := by
  rw [← mode_static hd ht hst (· = .tlsOffload), isOffload]
  obtain ⟨inner, rfl⟩ := hst.config
  rfl

theorem routesToUpstream_eq : t.routesToUpstream h = (t.upstream h).isSome := by
  have hmem : decide (toAsciiLowercase h ∈ t.locals) =
      (t.locals.lookup (toAsciiLowercase h)).isSome := by
    rw [Bool.eq_iff_iff, decide_eq_true_eq, AList.lookup_isSome]
  rw [routesToUpstream, upstream, Option.isSome_or, ← hmem]

end RoutingTable

end Tuyau
