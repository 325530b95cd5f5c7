import Tuyau.HostEntries
import Tuyau.Ownership

/-! # Fronted hosts in dynamic mode

A host with an upstream of its own is fronted: it should be served as its upstream entry says, whatever
the tenants of a dynamic backend do.  `after cfg ops` is the table of a configuration after any
sequence of calls, and `config_after` says what such a sequence leaves of the configuration: the
upstreams and the offload hosts are as they were, while the terminated hosts are those of the
configuration or of one of the lists that `set_terminated` was given.

So the target of a fronted host never changes, but whether TLS is terminated for it is decided by a set
that provisioning replaces.  `fronted_iff` says when a fronted host is served as configured throughout,
under the contract that every list names the terminating hosts of the configuration
(`KeepsTerminated`): exactly when no list names a passthrough upstream and no tunnel hostname of the
configuration names the host in another mode.

The offload hosts are a fixed set, and the terminated hosts are not.  `offload_terminated_iff` says
which lists provisioning may pass for the first to stay within the second: those that name every
offload host of the configuration. -/

namespace Tuyau

open AsciiText

namespace RoutingTable

variable {cfg : ServerConfig} {u : UpstreamEntry} {h : Text} {ops : List Op}

/-! ### The table after any calls -/

/-- The table of a configuration after a sequence of calls. -/
def after (cfg : ServerConfig) (ops : List Op) : RoutingTable :=
  ops.foldl call (fromConfig cfg.hostnames cfg.upstreams)

theorem after_concat (cfg : ServerConfig) (ops : List Op) (op : Op) :
    after cfg (ops ++ [op]) = (after cfg ops).call op := by
  simp [after]

/-- The terminated hosts of the configuration, in lower case. -/
def terminatedHosts (cfg : ServerConfig) : List Text :=
  hostsWith TlsMode.terminates cfg.hostnames cfg.upstreams

/-- What a sequence of calls leaves of the configuration. -/
theorem config_after (cfg : ServerConfig) (ops : List Op) :
    (after cfg ops).locals = (fromConfig cfg.hostnames cfg.upstreams).locals ∧
      (after cfg ops).offload = (fromConfig cfg.hostnames cfg.upstreams).offload ∧
      ((after cfg ops).terminated = (terminatedHosts cfg).toFinset ∨
        ∃ full, .setTerminated full ∈ ops ∧
          (after cfg ops).terminated = (full.map toAsciiLowercase).toFinset) := by
  induction ops using List.reverseRecOn with
  | nil => exact ⟨rfl, rfl, .inl rfl⟩
  | append_singleton ops op ih =>
      obtain ⟨hlocals, hoffload, hterm⟩ := ih
      rw [after_concat]
      by_cases hop : ∃ full, op = .setTerminated full
      · obtain ⟨full, rfl⟩ := hop
        exact ⟨hlocals, hoffload, .inr ⟨full, by simp, rfl⟩⟩
      · obtain ⟨inner, hsame⟩ := sameConfig_call (t := after cfg ops) (fun full hfull => hop ⟨full, hfull⟩)
        rw [hsame]
        refine ⟨hlocals, hoffload, hterm.imp_right ?_⟩
        rintro ⟨full, hin, heq⟩
        exact ⟨full, List.mem_append_left _ hin, heq⟩

/-- The names that TLS is terminated for after some calls, in lower case: those of the last list, or those of
the configuration. -/
def provisioned (cfg : ServerConfig) (ops : List Op) : List Text :=
  ops.foldl (fun names op =>
    match op with
    | .setTerminated full => full.map toAsciiLowercase
    | _ => names) (terminatedHosts cfg)

/-- The upstream that the wildcards of a configuration have for a lower-case name. -/
def wildcardOf (cfg : ServerConfig) (name : Text) : Option LocalUpstream :=
  ((hostPatterns name).drop 1).findSome? fun pattern =>
    (fromConfig cfg.hostnames cfg.upstreams).locals.lookup pattern

/-- Nothing but wildcards names a lower-case name: no upstream and no hostname of the configuration, no
list in force, and no tunnel. -/
def Unnamed (cfg : ServerConfig) (ops : List Op) (name : Text) : Prop :=
  name ∉ (fromConfig cfg.hostnames cfg.upstreams).locals ∧
    (∀ e ∈ cfg.hostnames, toAsciiLowercase e.host ≠ name) ∧ name ∉ provisioned cfg ops ∧
      name ∉ (after cfg ops).inner

/-- What a call does to the sets that decide the mode. -/
theorem sets_after (cfg : ServerConfig) (ops : List Op) :
    (after cfg ops).terminated = (provisioned cfg ops).toFinset ∧
      (after cfg ops).tunnelHosts = (fromConfig cfg.hostnames cfg.upstreams).tunnelHosts := by
  induction ops using List.reverseRecOn with
  | nil => exact ⟨rfl, rfl⟩
  | append_singleton ops op ih =>
      unfold provisioned
      rw [after_concat, List.foldl_concat]
      by_cases hop : ∃ full, op = .setTerminated full
      · obtain ⟨full, rfl⟩ := hop
        exact ⟨rfl, ih.2⟩
      · obtain ⟨inner, hsame⟩ := sameConfig_call (t := after cfg ops) (fun full hfull => hop ⟨full, hfull⟩)
        rw [hsame]
        cases op with
        | setTerminated full => exact absurd ⟨full, rfl⟩ hop
        | _ => exact ih

theorem named_after_iff {name : Text} : (after cfg ops).named name ↔ ¬ Unnamed cfg ops name := by
  obtain ⟨hlocals, -, -⟩ := config_after cfg ops
  obtain ⟨hterm, htunnel⟩ := sets_after cfg ops
  have hhost : name ∈ (fromConfig cfg.hostnames cfg.upstreams).tunnelHosts ↔
      ∃ e ∈ cfg.hostnames, toAsciiLowercase e.host = name := by
    simp [fromConfig]
  unfold named Unnamed
  rw [hlocals, htunnel, hterm, List.mem_toFinset, hhost]
  constructor
  · rintro (hin | ⟨e, he, hname⟩ | hin | hin) ⟨hlocal, hnone, hlist, hinner⟩
    · exact hlocal hin
    · exact hnone e he hname
    · exact hlist hin
    · exact hinner hin
  · intro hnamed
    by_contra hno
    push Not at hno
    exact hnamed ⟨hno.1, hno.2.1, hno.2.2.1, hno.2.2.2⟩

theorem wildcardUpstream_after {name : Text} {up : LocalUpstream} :
    (after cfg ops).wildcardUpstream name = some up ↔
      Unnamed cfg ops name ∧ wildcardOf cfg name = some up := by
  unfold wildcardUpstream wildcardOf
  rw [(config_after cfg ops).1]
  split_ifs with hnamed
  · rw [named_after_iff] at hnamed
    simp [hnamed]
  · rw [named_after_iff, not_not] at hnamed
    simp [hnamed]

/-! ### Fronted hosts -/

/-- The host is served as the upstream entry says. -/
structure FrontedAs (u : UpstreamEntry) (h : Text) (t : RoutingTable) : Prop where
  route : ∃ target, u.target = some target ∧
    ∀ isOpen, (t.lookup isOpen h).1 = some (.localTo target)
  terminated : t.isTerminated h = true ↔ u.tlsMode = .terminated ∨ u.tlsMode = .tlsOffload
  offload : t.isOffload h = true ↔ u.tlsMode = .tlsOffload

/-- Every list given to `set_terminated` names the terminated hosts of the configuration. -/
def KeepsTerminated (cfg : ServerConfig) (ops : List Op) : Prop :=
  ∀ full, .setTerminated full ∈ ops → ∀ name ∈ terminatedHosts cfg, name ∈ full.map toAsciiLowercase

/-- Nothing but the upstream entry `u` decides the mode of its host. -/
structure Unchallenged (cfg : ServerConfig) (ops : List Op) (u : UpstreamEntry) : Prop where
  provisioned : u.tlsMode = .passthrough → ∀ full, .setTerminated full ∈ ops →
    toAsciiLowercase u.host ∉ full.map toAsciiLowercase
  terminated : u.tlsMode = .passthrough → ∀ e ∈ cfg.hostnames,
    toAsciiLowercase e.host = toAsciiLowercase u.host → e.tlsMode = .passthrough
  offload : u.tlsMode ≠ .tlsOffload → ∀ e ∈ cfg.hostnames,
    toAsciiLowercase e.host = toAsciiLowercase u.host → e.tlsMode ≠ .tlsOffload

/-- The hosts with a mode, at the host of an upstream. -/
theorem mem_hostsWith_upstream (hd : cfg.UpstreamsDistinct) (hu : u ∈ cfg.upstreams)
    {test : TlsMode → Bool} :
    toAsciiLowercase u.host ∈ hostsWith test cfg.hostnames cfg.upstreams ↔
      test u.tlsMode = true ∨ ∃ e ∈ cfg.hostnames, test e.tlsMode = true ∧
        toAsciiLowercase e.host = toAsciiLowercase u.host := by
  rw [mem_hostsWith]
  constructor
  · rintro (he | ⟨u', hu', htest, hname⟩)
    · exact .inr he
    · obtain rfl := List.inj_on_of_nodup_map hd hu' hu hname
      exact .inl htest
  · rintro (htest | he)
    · exact .inr ⟨u, hu, htest, rfl⟩
    · exact .inl he

section

variable (hd : cfg.UpstreamsDistinct) (ht : cfg.HasTargets) (hu : u ∈ cfg.upstreams)
  (hh : toAsciiLowercase h = toAsciiLowercase u.host)
include hd ht hu hh

/-- No call touches the upstream of a fronted host. -/
theorem lookup_locals_after (ops : List Op) :
    ∃ target, u.target = some target ∧
      (after cfg ops).locals.lookup (toAsciiLowercase h) = some ⟨target, u.tlsMode⟩ := by
  obtain ⟨target, htarget⟩ := Option.isSome_iff_exists.mp (UpstreamEntry.target_isSome (ht u hu))
  refine ⟨target, htarget, ?_⟩
  rw [(config_after cfg ops).1, lookup_locals hd ht, hh, (ServerConfig.upstreamAt_eq_some hd).mpr ⟨hu, rfl⟩,
    Option.bind_some, UpstreamEntry.resolved, htarget]
  rfl

theorem route_after (ops : List Op) :
    ∃ target, u.target = some target ∧
      ∀ isOpen, ((after cfg ops).lookup isOpen h).1 = some (.localTo target) := by
  obtain ⟨target, htarget, hl⟩ := lookup_locals_after hd ht hu hh ops
  refine ⟨target, htarget, fun isOpen => lookup_eq_localTo.mpr ⟨⟨target, u.tlsMode⟩, ?_, rfl⟩⟩
  show ((after cfg ops).locals.lookup (toAsciiLowercase h)).or _ = _
  rw [hl]
  rfl

theorem isTerminated_after (ops : List Op) :
    (after cfg ops).isTerminated h = true ↔ toAsciiLowercase u.host ∈ (after cfg ops).terminated := by
  obtain ⟨target, -, hl⟩ := lookup_locals_after hd ht hu hh ops
  have hin : toAsciiLowercase h ∈ (after cfg ops).locals := AList.lookup_isSome.mp (by simp [hl])
  rw [(mode_of_named (.inl hin)).1, decide_eq_true_eq, hh]

theorem isOffload_after (ops : List Op) :
    (after cfg ops).isOffload h = true ↔ u.tlsMode = .tlsOffload ∨ ∃ e ∈ cfg.hostnames,
      e.tlsMode = .tlsOffload ∧ toAsciiLowercase e.host = toAsciiLowercase u.host := by
  obtain ⟨target, -, hl⟩ := lookup_locals_after hd ht hu hh ops
  have hin : toAsciiLowercase h ∈ (after cfg ops).locals := AList.lookup_isSome.mp (by simp [hl])
  rw [(mode_of_named (.inl hin)).2, decide_eq_true_eq, hh, (config_after cfg ops).2.1]
  show toAsciiLowercase u.host ∈ (hostsWith _ _ _).toFinset ↔ _
  rw [List.mem_toFinset, mem_hostsWith_upstream hd hu]
  simp only [decide_eq_true_eq]

end

/-- **When a fronted host is served as configured**, after whatever calls: exactly when no list names
the host of a passthrough upstream, and no tunnel hostname gives it another mode. -/
theorem fronted_iff (hcfg : cfg.validateDynamic = .ok ()) (hd : cfg.UpstreamsDistinct)
    (hu : u ∈ cfg.upstreams) (hh : toAsciiLowercase h = toAsciiLowercase u.host)
    (hkeeps : KeepsTerminated cfg ops) :
    (∀ ops₁, ops₁ <+: ops → FrontedAs u h (after cfg ops₁)) ↔ Unchallenged cfg ops u := by
  have ht := (ServerConfig.validateDynamic_ok hcfg).2
  have hterm := isTerminated_after hd ht hu hh
  have hoff := isOffload_after hd ht hu hh
  have hconf : toAsciiLowercase u.host ∈ terminatedHosts cfg ↔ u.tlsMode.terminates = true ∨
      ∃ e ∈ cfg.hostnames, e.tlsMode.terminates = true ∧
        toAsciiLowercase e.host = toAsciiLowercase u.host := mem_hostsWith_upstream hd hu
  constructor
  · intro hall
    have hstart := hall [] List.nil_prefix
    refine ⟨?_, ?_, ?_⟩
    · intro hpass full hin hnamed
      -- the state right after the list was given
      obtain ⟨ops₁, ops₂, rfl⟩ := List.append_of_mem hin
      have hthen := hall (ops₁ ++ [.setTerminated full]) ⟨ops₂, by simp⟩
      have hset : toAsciiLowercase u.host ∈ (after cfg (ops₁ ++ [.setTerminated full])).terminated := by
        rw [after_concat]
        exact List.mem_toFinset.mpr hnamed
      have hm := hthen.terminated.mp ((hterm _).mpr hset)
      simp [hpass] at hm
    · intro hpass e he hname
      apply TlsMode.not_terminates.mp
      intro hme
      have hset : toAsciiLowercase u.host ∈ (after cfg []).terminated :=
        List.mem_toFinset.mpr (hconf.mpr (.inr ⟨e, he, hme, hname⟩))
      have hm := hstart.terminated.mp ((hterm _).mpr hset)
      simp [hpass] at hm
    · intro hne e he hname hme
      exact hne (hstart.offload.mp ((hoff _).mpr (.inr ⟨e, he, hme, hname⟩)))
  · intro hun ops₁ hpre
    refine ⟨route_after hd ht hu hh ops₁, ?_, ?_⟩
    · rw [hterm, ← TlsMode.terminates_iff]
      rcases (config_after cfg ops₁).2.2 with hcur | ⟨full, hin, hcur⟩
      · rw [hcur, List.mem_toFinset, hconf]
        constructor
        · rintro (hm | ⟨e, he, hme, hname⟩)
          · exact hm
          · by_contra hm
            have hpass := TlsMode.not_terminates.mp hm
            rw [hun.terminated hpass e he hname] at hme
            cases hme
        · exact .inl
      · rw [hcur, List.mem_toFinset]
        have hin' := hpre.subset hin
        constructor
        · intro hnamed
          by_contra hm
          exact hun.provisioned (TlsMode.not_terminates.mp hm) full hin' hnamed
        · exact fun hm => hkeeps full hin' _ (hconf.mpr (.inl hm))
    · rw [hoff]
      constructor
      · rintro (hm | ⟨e, he, hme, hname⟩)
        · exact hm
        · by_contra hne
          exact hun.offload hne e he hname hme
      · exact .inl

/-- A database that does its own TLS. -/
def database : UpstreamEntry where
  host := "db".toList
  localAddr := some (.v4 127 0 0 1 5432)
  tlsMode := .passthrough

/-- The database and a web server, both fronted. -/
def frontedPair : ServerConfig where
  upstreams := [database, { host := "Web".toList, localAddr := some (.v4 127 0 0 1 8080) }]

/-- A tenant connects for the host of the database, another host is provisioned, the tenant is kicked:
the database is served as configured throughout. -/
theorem fronted_database :
    let ops : List Op := [.install ⟨['b'], .roundRobin, [("db".toList, .terminated)]⟩ (.nth 0),
      .setTerminated ["web".toList, "app".toList], .kick ['b'], .removeConn 0]
    ∀ ops₁, ops₁ <+: ops → FrontedAs database "DB".toList (after frontedPair ops₁) := by
  intro ops
  have hfull : ∀ full, .setTerminated full ∈ ops → full = ["web".toList, "app".toList] := by
    intro full hin
    simpa [ops] using hin
  have hu : database ∈ frontedPair.upstreams := List.mem_cons_self
  have hh : toAsciiLowercase "DB".toList = toAsciiLowercase database.host := by decide
  refine (fronted_iff rfl ?_ hu hh ?_).mpr ⟨?_, ?_, ?_⟩
  · show List.Nodup _
    decide
  · intro full hin
    rw [hfull full hin]
    decide
  · intro _ full hin
    rw [hfull full hin]
    decide
  · exact fun _ e he => absurd he List.not_mem_nil
  · exact fun _ e he => absurd he List.not_mem_nil

/-- The host of the database is provisioned as terminated: from then on the server terminates its TLS
and sees the plaintext. -/
theorem fronted_database_terminated :
    let ops : List Op := [.setTerminated ["web".toList, "db".toList]]
    frontedPair.validateDynamic = .ok () ∧ frontedPair.UpstreamsDistinct ∧
      KeepsTerminated frontedPair ops ∧ (after frontedPair ops).isTerminated "db".toList = true ∧
      ¬ ∀ ops₁, ops₁ <+: ops → FrontedAs database "db".toList (after frontedPair ops₁) := by
  intro ops
  have hset : (after frontedPair ops).isTerminated "db".toList = true := by decide
  refine ⟨rfl, ?_, ?_, hset, ?_⟩
  · show List.Nodup _
    decide
  · intro full hin
    have hfull : full = ["web".toList, "db".toList] := by simpa [ops] using hin
    rw [hfull]
    decide
  · intro hall
    have hmode := (hall ops (List.prefix_refl _)).terminated.mp hset
    exact absurd hmode (by decide)

/-! ### Offload hosts -/

/-- The hosts of the configuration with offloaded TLS, in lower case. -/
def offloadHosts (cfg : ServerConfig) : List Text :=
  hostsWith (· = .tlsOffload) cfg.hostnames cfg.upstreams

/-- TLS is terminated for every host whose plaintext is piped, and the hosts that the configuration
sets so are among them. -/
structure OffloadTerminated (cfg : ServerConfig) (t : RoutingTable) : Prop where
  subset : ∀ h, t.isOffload h = true → t.isTerminated h = true
  configured : ∀ h, toAsciiLowercase h ∈ offloadHosts cfg → t.isOffload h = true ∧ t.isTerminated h = true

theorem offloadHosts_subset (cfg : ServerConfig) : offloadHosts cfg ⊆ terminatedHosts cfg := by
  intro name hname
  simp only [offloadHosts, terminatedHosts, mem_hostsWith, decide_eq_true_eq] at hname ⊢
  rcases hname with ⟨e, he, hmode, heq⟩ | ⟨u, hu, hmode, heq⟩
  · exact .inl ⟨e, he, TlsMode.terminates_iff.mpr (.inr hmode), heq⟩
  · exact .inr ⟨u, hu, TlsMode.terminates_iff.mpr (.inr hmode), heq⟩

/-- A wildcard upstream with offloaded TLS also terminates it, so only the two sets matter. -/
theorem isTerminated_of_isOffload {t : RoutingTable} (hsub : t.offload ⊆ t.terminated)
    (hoff : t.isOffload h = true) : t.isTerminated h = true := by
  simp only [isOffload, isTerminated, Bool.or_eq_true, decide_eq_true_eq, Option.any_eq_true] at hoff ⊢
  rcases hoff with hin | ⟨up, hup, hmode⟩
  · exact .inl (hsub hin)
  · exact .inr ⟨up, hup, TlsMode.terminates_iff.mpr (.inr hmode)⟩

theorem offload_after (cfg : ServerConfig) (ops : List Op) :
    (after cfg ops).offload = (offloadHosts cfg).toFinset := (config_after cfg ops).2.1

/-- While every list names the offload hosts, the terminated hosts include them. -/
theorem offload_subset_after
    (hkeeps : ∀ full, .setTerminated full ∈ ops → offloadHosts cfg ⊆ full.map toAsciiLowercase) :
    (after cfg ops).offload ⊆ (after cfg ops).terminated := by
  rw [offload_after]
  intro name hname
  rcases (config_after cfg ops).2.2 with hterm | ⟨full, hin, hterm⟩
  · rw [hterm, List.mem_toFinset]
    exact offloadHosts_subset cfg (List.mem_toFinset.mp hname)
  · rw [hterm, List.mem_toFinset]
    exact hkeeps full hin (List.mem_toFinset.mp hname)

/-- A tunnel connects for one host, and then the terminated hosts are replaced. -/
def takenOver (name : Text) (full : List Text) : List Op :=
  [.install ⟨[], .roundRobin, [(name, .passthrough)]⟩ (.nth 0), .setTerminated full]

/-- A host with a tunnel falls back to no wildcard, so the new list alone decides. -/
theorem isTerminated_takenOver {name : Text} {full : List Text} (hlower : toAsciiLowercase name = name) :
    (after cfg (takenOver name full)).isTerminated name = true ↔ name ∈ full.map toAsciiLowercase := by
  have hinner : name ∈ (after cfg (takenOver name full)).inner := by
    show name ∈ AList.insert name _ _
    exact AList.mem_insert _ |>.mpr (.inl rfl)
  have hnamed : (after cfg (takenOver name full)).named (toAsciiLowercase name) := by
    rw [hlower]
    exact .inr (.inr (.inr hinner))
  rw [(mode_of_named hnamed).1, decide_eq_true_eq, hlower]
  exact List.mem_toFinset

/-- **When offload stays within termination.**  If provisioning passes only lists of a given kind to
`set_terminated`, then TLS is terminated for all offload hosts, those of the configuration included,
in every state that is reached, exactly if each list of this kind names all of the latter. -/
theorem offload_terminated_iff (cfg : ServerConfig) (passed : List Text → Prop) :
    (∀ ops, (∀ full, .setTerminated full ∈ ops → passed full) → OffloadTerminated cfg (after cfg ops)) ↔
      ∀ full, passed full → offloadHosts cfg ⊆ full.map toAsciiLowercase := by
  constructor
  · intro hall full hfull name hname
    have hlower := toAsciiLowercase_of_mem_hostsWith hname
    have hpassed : ∀ full', .setTerminated full' ∈ takenOver name full → passed full' := by
      intro full' hin
      obtain rfl : full' = full := by simpa [takenOver] using hin
      exact hfull
    have hboth := (hall (takenOver name full) hpassed).configured name (by rwa [hlower])
    exact (isTerminated_takenOver hlower).mp hboth.2
  · intro hkeeps ops hops
    have hsub : (after cfg ops).offload ⊆ (after cfg ops).terminated :=
      offload_subset_after fun full hin => hkeeps full (hops full hin)
    refine ⟨fun h hoff => isTerminated_of_isOffload hsub hoff, fun h hin => ?_⟩
    have hoff : (after cfg ops).isOffload h = true := by
      rw [isOffload, Bool.or_eq_true, decide_eq_true_eq, offload_after]
      exact .inl (List.mem_toFinset.mpr hin)
    exact ⟨hoff, isTerminated_of_isOffload hsub hoff⟩

/-- One upstream with offloaded TLS. -/
def offloadUpstream : ServerConfig where
  upstreams := [{ host := "app".toList, localAddr := some (.v4 127 0 0 1 5432), tlsMode := .tlsOffload }]

/-- Provisioning passes a list without the offload host: it is still piped, but TLS is no longer
terminated for it. -/
theorem offload_not_terminated :
    offloadUpstream.validate = .ok () ∧ offloadUpstream.validateDynamic = .ok () ∧
      (after offloadUpstream [.setTerminated []]).isOffload "app".toList = true ∧
      ¬ OffloadTerminated offloadUpstream (after offloadUpstream [.setTerminated []]) := by
  have hoff : (after offloadUpstream [.setTerminated []]).isOffload "app".toList = true := by decide
  refine ⟨by decide, by decide, hoff, fun h => ?_⟩
  exact absurd (h.subset _ hoff) (by decide)

/-- A catch-all upstream that the server terminates TLS for. -/
def catchAll : ServerConfig where
  upstreams := [{ host := ['*'], localAddr := some (.v4 127 0 0 1 8080) }]

end RoutingTable

end Tuyau
