import Tuyau.DynamicMode
import Tuyau.OwnCerts

/-! # What dynamic mode makes of the ignored entries

In dynamic mode the backend owns clients and hostnames, and the clients and hostnames of the
configuration should be ignored.  Here a configuration is compared with one that differs from it in
these two lists only (`withTunnels`).  The clients are indeed never read.  The hostnames are: they are
validated (`validateDynamic_iff`), the routing table keeps them as exact names and in its sets of
terminated and offload hosts, their certs are loaded, and the cert of the whole server names them.

`SameUse` says when two lists of hostnames come to the same in all of this.  For the table it asks that
the two sets are the same and that no name which a wildcard upstream covers is a hostname of one
configuration only: two such tables differ in `tunnelHosts` and answer alike after any calls
(`after_withTunnels`), and any other difference shows after at most one call.
**`ignores_tunnels_iff`**: the two configurations cannot be told apart exactly if the rest of the
configuration is refused anyway, or both lists are invalid, or both are valid and come to the same. -/

namespace Tuyau

open AsciiText RoutingTable

namespace ServerConfig

/-- The configuration with other clients and hostnames. -/
def withTunnels (cfg : ServerConfig) (clients : List ClientEntry) (hostnames : List HostnameEntry) :
    ServerConfig :=
  { cfg with clients, hostnames }

/-- What validation asks of the hostnames: no pattern, and certs as for upstreams. -/
def HostnamesOk (cfg : ServerConfig) : Prop :=
  ∀ e ∈ cfg.hostnames, '*' ∉ e.host ∧ e.tlsCertFile.isSome = e.tlsKeyFile.isSome ∧
    (e.tlsCertFile.isSome → e.tlsMode ≠ .passthrough)

/-- The hosts that set a cert, in lower case, with its files. -/
def certKeys (cfg : ServerConfig) : List (Text × CertFiles) :=
  cfg.hostCerts.filterMap fun row =>
    (certFiles row.2.2.1 row.2.2.2).map fun files => (toAsciiLowercase row.1, files)

/-- Two lists of hostnames come to the same: the same terminated and offload hosts, the same names
under wildcard upstreams, the same cert for each host and the same files to read. -/
structure SameUse (cfg cfg' : ServerConfig) : Prop where
  terminated : ∀ name, name ∈ terminatedHosts cfg ↔ name ∈ terminatedHosts cfg'
  offload : ∀ name, name ∈ offloadHosts cfg ↔ name ∈ offloadHosts cfg'
  covered : ∀ name, cfg.upstreamAt name = none → (cfg.wildcardEntry name).isSome →
    ((cfg.hostnameAt name).isSome ↔ (cfg'.hostnameAt name).isSome)
  certs : ∀ name, (AssocMap.collect cfg.certKeys).lookup name = (AssocMap.collect cfg'.certKeys).lookup name
  files : ∀ files, files ∈ cfg.certKeys.map Prod.snd ↔ files ∈ cfg'.certKeys.map Prod.snd

/-- Either the rest of the configuration is refused, or both lists of hostnames are invalid, or both
are valid and come to the same. -/
def TunnelsMatch (cfg cfg' : ServerConfig) : Prop :=
  (cfg.withTunnels [] []).validateDynamic = .ok () →
    (cfg.HostnamesOk ↔ cfg'.HostnamesOk) ∧ (cfg.HostnamesOk → cfg'.HostnamesOk → SameUse cfg cfg')

end ServerConfig

/-- The table queries about a host give the same answers. -/
structure SameAnswers (t t' : RoutingTable) (h : Text) : Prop where
  terminated : t.isTerminated h = t'.isTerminated h
  offload : t.isOffload h = t'.isOffload h
  upstream : t.routesToUpstream h = t'.routesToUpstream h
  lookup : ∀ isOpen, (t.lookup isOpen h).1 = (t'.lookup isOpen h).1

/-- The certs of entries, and the hosts that ACME or the self-signed cert covers, are the same. -/
structure SameCerts {ε κ : Type} (loadChain : CertFiles → Except ε κ) (cfg cfg' : ServerConfig) :
    Prop where
  loads : (∃ certs, HostCerts.load loadChain cfg = .ok certs) ↔
    ∃ certs, HostCerts.load loadChain cfg' = .ok certs
  certs : ∀ certs certs', HostCerts.load loadChain cfg = .ok certs →
    HostCerts.load loadChain cfg' = .ok certs' → ∀ name, certs.map.lookup name = certs'.map.lookup name
  terminated : ∀ name, name ∈ cfg.terminatedHostnames.map toAsciiLowercase ↔
    name ∈ cfg'.terminatedHostnames.map toAsciiLowercase
  shared : ∀ certs certs', HostCerts.load loadChain cfg = .ok certs →
    HostCerts.load loadChain cfg' = .ok certs' → ∀ name,
      name ∈ (cfg.sharedHostnames certs).map toAsciiLowercase ↔
        name ∈ (cfg'.sharedHostnames certs').map toAsciiLowercase

/-- Two configurations cannot be told apart in dynamic mode. -/
structure IgnoresTunnels (cfg cfg' : ServerConfig) : Prop where
  verdict : cfg.validateDynamic = .ok () ↔ cfg'.validateDynamic = .ok ()
  answers : cfg.validateDynamic = .ok () → ∀ ops h, SameAnswers (after cfg ops) (after cfg' ops) h
  certs : cfg.validateDynamic = .ok () → ∀ (ε κ : Type) (loadChain : CertFiles → Except ε κ),
    SameCerts loadChain cfg cfg'

/-! ### Validation -/

namespace ServerConfig

variable {cfg : ServerConfig}

/-- A check followed by others. -/
theorem check_bind_eq_ok {ε β : Type} {x : Except ε Unit} {f : Unit → Except ε β} {b : β} :
    x >>= f = .ok b ↔ x = .ok () ∧ f () = .ok b := by
  rw [bind_eq_ok]
  constructor
  · rintro ⟨⟨⟩, hx, hf⟩
    exact ⟨hx, hf⟩
  · rintro ⟨hx, hf⟩
    exact ⟨(), hx, hf⟩

theorem validateDynamic_eq_ok : cfg.validateDynamic = .ok () ↔
    (∃ seen, insertAll .duplicateHost (cfg.upstreams.map UpstreamEntry.host) ∅ = .ok seen) ∧
      cfg.validateUpstreamTargets = .ok () ∧ cfg.validateHostPatterns = .ok () ∧
      cfg.validateHostCerts = .ok () ∧ cfg.validateAcme = .ok () := by
  simp only [validateDynamic, bind_eq_ok (α := Finset Text), check_bind_eq_ok, exists_and_right]

theorem certCheck_eq_none {host : Text} {mode : TlsMode} {cert key : Option PathBuf} :
    (if cert.isSome ≠ key.isSome then some (ConfigError.hostCertPair host)
      else if cert.isSome ∧ mode = .passthrough then some (.hostCertPassthrough host)
      else none) = none ↔ cert.isSome = key.isSome ∧ (cert.isSome → mode ≠ .passthrough) := by
  split_ifs with hpair hpass
  · simp [hpair]
  · simp [hpass]
  · simp only [true_iff]
    exact ⟨not_not.mp hpair, fun hsome hmode => hpass ⟨hsome, hmode⟩⟩

/-- Validation reads the hostnames in two places, and each by itself. -/
theorem validateDynamic_iff (cfg : ServerConfig) :
    cfg.validateDynamic = .ok () ↔
      (cfg.withTunnels [] []).validateDynamic = .ok () ∧ cfg.HostnamesOk := by
  have hpatterns : cfg.validateHostPatterns = .ok () ↔
      (cfg.withTunnels [] []).validateHostPatterns = .ok () ∧ ∀ e ∈ cfg.hostnames, '*' ∉ e.host := by
    simp only [validateHostPatterns, check_bind_eq_ok, checkEach_ok, withTunnels, List.not_mem_nil,
      false_imp_iff, implies_true, true_and, ite_eq_right_iff, reduceCtorEq, imp_false]
    exact and_comm
  have hcerts : cfg.validateHostCerts = .ok () ↔ (cfg.withTunnels [] []).validateHostCerts = .ok () ∧
      ∀ e ∈ cfg.hostnames, e.tlsCertFile.isSome = e.tlsKeyFile.isSome ∧
        (e.tlsCertFile.isSome → e.tlsMode ≠ .passthrough) := by
    simp only [validateHostCerts, checkEach_ok, hostCerts, withTunnels, List.map_nil, List.nil_append,
      List.forall_mem_append, List.forall_mem_map, certCheck_eq_none]
    exact and_comm
  rw [validateDynamic_eq_ok, validateDynamic_eq_ok, hpatterns, hcerts]
  constructor
  · rintro ⟨hseen, htargets, ⟨hups, hplain⟩, ⟨hupcerts, hnamecerts⟩, hacme⟩
    exact ⟨⟨hseen, htargets, hups, hupcerts, hacme⟩, fun e he => ⟨hplain e he, hnamecerts e he⟩⟩
  · rintro ⟨⟨hseen, htargets, hups, hupcerts, hacme⟩, hok⟩
    exact ⟨hseen, htargets, ⟨hups, fun e he => (hok e he).1⟩, ⟨hupcerts, fun e he => (hok e he).2⟩, hacme⟩

end ServerConfig

/-! ### Tables with other tunnel hosts -/

namespace RoutingTable

variable {t : RoutingTable} {s : Finset Text} {cfg : ServerConfig}

/-- The wildcard upstream that serves a name if no exact entry hides it. -/
def wildcardFor (t : RoutingTable) (name : Text) : Option LocalUpstream :=
  ((hostPatterns name).drop 1).findSome? fun pattern => t.locals.lookup pattern

/-- The tunnel hosts `s` differ from those of the table in no name that a wildcard upstream covers. -/
def SameCovered (t : RoutingTable) (s : Finset Text) : Prop :=
  ∀ name, name ∉ t.locals → (t.wildcardFor name).isSome → (name ∈ t.tunnelHosts ↔ name ∈ s)

theorem wildcardUpstream_tunnelHosts (h : t.SameCovered s) (name : Text) :
    wildcardUpstream { t with tunnelHosts := s } name = t.wildcardUpstream name := by
  by_cases hlocal : name ∈ t.locals
  · rw [wildcardUpstream, wildcardUpstream, if_pos (.inl hlocal), if_pos (.inl hlocal)]
  · cases hfor : t.wildcardFor name with
    | none =>
        show (if _ then none else t.wildcardFor name) = if _ then none else t.wildcardFor name
        rw [hfor, ite_self, ite_self]
    | some up =>
        have hhosts := h name hlocal (by rw [hfor]; rfl)
        have hnamed : named { t with tunnelHosts := s } name ↔ t.named name := by
          simp only [named, hhosts]
        rw [wildcardUpstream, wildcardUpstream, if_congr hnamed rfl rfl]

theorem upstream_tunnelHosts (h : t.SameCovered s) (host : Text) :
    upstream { t with tunnelHosts := s } host = t.upstream host := by
  rw [upstream, upstream, wildcardUpstream_tunnelHosts h]

theorem lookup_tunnelHosts (h : t.SameCovered s) (isOpen : Connection → Bool) (host : Text) :
    lookup { t with tunnelHosts := s } isOpen host =
      ((t.lookup isOpen host).1, { (t.lookup isOpen host).2 with tunnelHosts := s }) := by
  rw [lookup, lookup, upstream_tunnelHosts h]
  cases t.upstream host with
  | some up => rfl
  | none =>
      cases t.inner.lookup host with
      | none => rfl
      | some entry =>
          dsimp only
          split_ifs
          · rfl
          · rfl

/-- Such tables answer alike. -/
theorem sameAnswers_tunnelHosts (h : t.SameCovered s) (host : Text) :
    SameAnswers t { t with tunnelHosts := s } host := by
  refine ⟨?_, ?_, ?_, fun isOpen => ?_⟩
  · rw [isTerminated, isTerminated, wildcardUpstream_tunnelHosts h]
  · rw [isOffload, isOffload, wildcardUpstream_tunnelHosts h]
  · rw [routesToUpstream, routesToUpstream, wildcardUpstream_tunnelHosts h]
  · rw [lookup_tunnelHosts h]

/-- A call on such tables leaves such tables. -/
theorem call_tunnelHosts (h : t.SameCovered s) (op : Op) :
    call { t with tunnelHosts := s } op = { t.call op with tunnelHosts := s } ∧
      (t.call op).SameCovered s := by
  have hkeeps : ∀ {t'}, SameConfig t t' → t'.SameCovered s := by
    rintro _ ⟨inner, rfl⟩
    exact h
  cases op with
  | install g c =>
      refine ⟨?_, hkeeps sameConfig_install⟩
      rw [call, call, install, install]
      split_ifs
      · rfl
      · rfl
  | removeConn stableId => exact ⟨rfl, h⟩
  | kick clientName => exact ⟨rfl, h⟩
  | setTerminated full => exact ⟨rfl, h⟩
  | lookup isOpen host =>
      refine ⟨?_, hkeeps sameConfig_lookup⟩
      rw [call, call, lookup_tunnelHosts h]

theorem foldl_tunnelHosts (h : t.SameCovered s) (ops : List Op) :
    ops.foldl call { t with tunnelHosts := s } = { ops.foldl call t with tunnelHosts := s } ∧
      (ops.foldl call t).SameCovered s := by
  induction ops generalizing t with
  | nil => exact ⟨rfl, h⟩
  | cons op ops ih =>
      obtain ⟨hcall, hcovered⟩ := call_tunnelHosts h op
      rw [List.foldl_cons, List.foldl_cons, hcall]
      exact ih hcovered

/-! ### The table of a configuration -/

theorem mem_locals_iff (ht : cfg.HasTargets) {name : Text} :
    name ∈ (fromConfig cfg.hostnames cfg.upstreams).locals ↔ (cfg.upstreamAt name).isSome := by
  show name ∈ AssocMap.collect _ ↔ _
  rw [AssocMap.mem_collect]
  constructor
  · intro hin
    obtain ⟨u, hu, hname⟩ := List.mem_map.mp ((keys_localUpstream_sublist _).subset hin)
    exact List.find?_isSome.mpr ⟨u, hu, by simpa using hname⟩
  · intro hsome
    obtain ⟨u, hu, hname⟩ := List.find?_isSome.mp hsome
    obtain ⟨target, htarget⟩ := Option.isSome_iff_exists.mp (UpstreamEntry.target_isSome (ht u hu))
    refine List.mem_map.mpr ⟨(toAsciiLowercase u.host, ⟨target, u.tlsMode⟩), ?_, by simpa using hname⟩
    exact List.mem_filterMap.mpr ⟨u, hu, by rw [UpstreamEntry.localUpstream, htarget, Option.map_some]⟩

theorem wildcardFor_isSome (ht : cfg.HasTargets) {name : Text} :
    ((fromConfig cfg.hostnames cfg.upstreams).wildcardFor name).isSome ↔
      (cfg.wildcardEntry name).isSome := by
  have hlookup : ∀ pattern, ((fromConfig cfg.hostnames cfg.upstreams).locals.lookup pattern).isSome =
      (cfg.upstreamAt pattern).isSome := by
    intro pattern
    rw [Bool.eq_iff_iff, AList.lookup_isSome, mem_locals_iff ht]
  rw [wildcardFor, List.findSome?_isSome_iff, ServerConfig.wildcardEntry, ServerConfig.parentPattern,
    hostPatterns, Option.isSome_or, Bool.or_eq_true]
  simp only [hlookup]
  cases splitOnce '.' name with
  | none => simp
  | some p => simp

theorem mem_tunnelHosts_iff (cfg : ServerConfig) {name : Text} :
    name ∈ (fromConfig cfg.hostnames cfg.upstreams).tunnelHosts ↔ (cfg.hostnameAt name).isSome := by
  show name ∈ List.toFinset _ ↔ _
  rw [List.mem_toFinset, List.mem_map, ServerConfig.hostnameAt, List.find?_isSome]
  simp only [decide_eq_true_eq]

/-- A terminated host has an exact entry without being in that set. -/
theorem mem_of_mem_terminatedHosts (ht : cfg.HasTargets) {name : Text} (h : name ∈ terminatedHosts cfg) :
    name ∈ (fromConfig cfg.hostnames cfg.upstreams).locals ∨
      name ∈ (fromConfig cfg.hostnames cfg.upstreams).tunnelHosts := by
  obtain ⟨e, he, -, hname⟩ | ⟨u, hu, -, hname⟩ := mem_hostsWith.mp h
  · exact .inr ((mem_tunnelHosts_iff cfg).mpr (List.find?_isSome.mpr ⟨e, he, by simpa using hname⟩))
  · exact .inl ((mem_locals_iff ht).mpr (List.find?_isSome.mpr ⟨u, hu, by simpa using hname⟩))

/-- After a call that provisions a host, only the set of offload hosts decides whether it is piped. -/
theorem isOffload_provisioned {name : Text} (hlower : toAsciiLowercase name = name) :
    (after cfg [.setTerminated [name]]).isOffload name = true ↔ name ∈ offloadHosts cfg := by
  have hterm : name ∈ (after cfg [.setTerminated [name]]).terminated :=
    List.mem_toFinset.mpr (by simp [hlower])
  have hnamed : (after cfg [.setTerminated [name]]).named (toAsciiLowercase name) := by
    rw [hlower]
    exact .inr (.inr (.inl hterm))
  rw [(mode_of_named hnamed).2, decide_eq_true_eq, hlower]
  exact List.mem_toFinset

/-- After a call that provisions no host, a name under a wildcard goes to it unless it is a tunnel
host. -/
theorem routesToUpstream_cleared (cfg : ServerConfig) {name : Text} (hlower : toAsciiLowercase name = name)
    (hlocal : name ∉ (fromConfig cfg.hostnames cfg.upstreams).locals)
    (hfor : ((fromConfig cfg.hostnames cfg.upstreams).wildcardFor name).isSome) :
    (after cfg [.setTerminated []]).routesToUpstream name = true ↔
      name ∉ (fromConfig cfg.hostnames cfg.upstreams).tunnelHosts := by
  have hnamed : (after cfg [.setTerminated []]).named name ↔
      name ∈ (fromConfig cfg.hostnames cfg.upstreams).tunnelHosts := by
    constructor
    · rintro (hin | hin | hin | hin)
      · exact absurd hin hlocal
      · exact hin
      · exact absurd hin (Finset.notMem_empty name)
      · exact absurd hin (AList.notMem_empty name)
    · exact fun hin => .inr (.inl hin)
  have hlocal' : name ∉ (after cfg [.setTerminated []]).locals := hlocal
  rw [routesToUpstream, hlower, wildcardUpstream, if_congr hnamed rfl rfl]
  simp only [hlocal', decide_false, Bool.false_or]
  split_ifs with hin
  · simp [hin]
  · exact iff_of_true hfor hin

/-- A terminated host of the configuration is found terminated at the start; conversely a host is only
if it is one or a wildcard covers it. -/
theorem mem_terminatedHosts_of_answers (cfg cfg' : ServerConfig) (ht : cfg.HasTargets)
    (hlocals : (fromConfig cfg'.hostnames cfg'.upstreams).locals =
      (fromConfig cfg.hostnames cfg.upstreams).locals)
    (hcovered : SameCovered (fromConfig cfg.hostnames cfg.upstreams)
      (fromConfig cfg'.hostnames cfg'.upstreams).tunnelHosts)
    {name : Text} (hin : name ∈ terminatedHosts cfg)
    (hsame : (after cfg []).isTerminated name = (after cfg' []).isTerminated name) :
    name ∈ terminatedHosts cfg' := by
  have hlower := toAsciiLowercase_of_mem_hostsWith hin
  have hterm : (after cfg []).isTerminated name = true := by
    rw [isTerminated, Bool.or_eq_true, decide_eq_true_eq, hlower]
    exact .inl (List.mem_toFinset.mpr hin)
  rw [hsame, isTerminated, Bool.or_eq_true, decide_eq_true_eq, hlower] at hterm
  refine List.mem_toFinset.mp (hterm.resolve_right fun hany => ?_)
  -- a wildcard would have to cover the name, which is an exact entry of both tables then
  rw [Option.any_eq_true] at hany
  obtain ⟨up, hup, -⟩ := hany
  rw [wildcardUpstream] at hup
  split_ifs at hup with hnamed
  have hlocal : name ∉ (fromConfig cfg.hostnames cfg.upstreams).locals := by
    rw [← hlocals]
    exact fun h => hnamed (.inl h)
  have hfor : ((fromConfig cfg.hostnames cfg.upstreams).wildcardFor name).isSome := by
    rw [wildcardFor, ← hlocals]
    exact Option.isSome_iff_exists.mpr ⟨up, hup⟩
  have htunnel := (mem_of_mem_terminatedHosts ht hin).resolve_left hlocal
  exact hnamed (.inr (.inl ((hcovered name hlocal hfor).mp htunnel)))

section

variable {clients : List ClientEntry} {hostnames : List HostnameEntry}

/-- The tunnel hosts of two configurations, in terms of their entries. -/
theorem sameCovered_iff (ht : cfg.HasTargets) :
    SameCovered (fromConfig cfg.hostnames cfg.upstreams) (fromConfig hostnames cfg.upstreams).tunnelHosts ↔
      ∀ name, cfg.upstreamAt name = none → (cfg.wildcardEntry name).isSome →
        ((cfg.hostnameAt name).isSome ↔ ((cfg.withTunnels clients hostnames).hostnameAt name).isSome) := by
  have hmem : ∀ name, name ∈ (fromConfig hostnames cfg.upstreams).tunnelHosts ↔
      ((cfg.withTunnels clients hostnames).hostnameAt name).isSome := fun name =>
    mem_tunnelHosts_iff (cfg.withTunnels clients hostnames)
  refine forall_congr' fun name => ?_
  rw [mem_locals_iff ht, wildcardFor_isSome ht, mem_tunnelHosts_iff cfg, hmem, Bool.not_eq_true,
    Option.isSome_eq_false_iff, Option.isNone_iff_eq_none]

/-- The table with other hostnames, after any calls, if the two sets stay the same. -/
theorem after_withTunnels
    (hterm : ∀ name, name ∈ terminatedHosts cfg ↔ name ∈ terminatedHosts (cfg.withTunnels clients hostnames))
    (hoff : ∀ name, name ∈ offloadHosts cfg ↔ name ∈ offloadHosts (cfg.withTunnels clients hostnames))
    (hcovered : SameCovered (fromConfig cfg.hostnames cfg.upstreams)
      (fromConfig hostnames cfg.upstreams).tunnelHosts) (ops : List Op) :
    after (cfg.withTunnels clients hostnames) ops =
        { after cfg ops with tunnelHosts := (fromConfig hostnames cfg.upstreams).tunnelHosts } ∧
      (after cfg ops).SameCovered (fromConfig hostnames cfg.upstreams).tunnelHosts := by
  have hterm' : (fromConfig hostnames cfg.upstreams).terminated =
      (fromConfig cfg.hostnames cfg.upstreams).terminated :=
    Finset.ext fun name => List.mem_toFinset.trans ((hterm name).symm.trans List.mem_toFinset.symm)
  have hoff' : (fromConfig hostnames cfg.upstreams).offload =
      (fromConfig cfg.hostnames cfg.upstreams).offload :=
    Finset.ext fun name => List.mem_toFinset.trans ((hoff name).symm.trans List.mem_toFinset.symm)
  have hstart : fromConfig hostnames cfg.upstreams =
      { fromConfig cfg.hostnames cfg.upstreams with
        tunnelHosts := (fromConfig hostnames cfg.upstreams).tunnelHosts } := by
    dsimp only
    rw [← hterm', ← hoff']
    rfl
  obtain ⟨hafter, hcovered'⟩ := foldl_tunnelHosts hcovered ops
  rw [← hstart] at hafter
  exact ⟨hafter, hcovered'⟩

/-- If the answers are the same after a call that provisions no host, the tunnel hosts differ in no name
under a wildcard. -/
theorem sameCovered_of_answers
    (h : ∀ name, (after cfg [.setTerminated []]).routesToUpstream name =
      (after (cfg.withTunnels clients hostnames) [.setTerminated []]).routesToUpstream name) :
    SameCovered (fromConfig cfg.hostnames cfg.upstreams)
      (fromConfig hostnames cfg.upstreams).tunnelHosts := by
  intro name hlocal hfor
  by_cases hlower : toAsciiLowercase name = name
  · have hroutes := routesToUpstream_cleared cfg hlower hlocal hfor
    have hroutes' := routesToUpstream_cleared (cfg.withTunnels clients hostnames) hlower hlocal hfor
    rw [← not_iff_not, ← hroutes, h name]
    exact hroutes'
  · -- the tunnel hosts are all in lower case
    have hnot : ∀ hosts : List HostnameEntry, name ∉ (fromConfig hosts cfg.upstreams).tunnelHosts := by
      intro hosts hin
      obtain ⟨e, -, rfl⟩ := List.mem_map.mp (List.mem_toFinset.mp hin)
      exact hlower (toAsciiLowercase_idem _)
    exact iff_of_false (hnot _) (hnot _)

/-- **Which hostnames leave the answers of the table alone.** -/
theorem sameAnswers_iff (ht : cfg.HasTargets) :
    (∀ ops h, SameAnswers (after cfg ops) (after (cfg.withTunnels clients hostnames) ops) h) ↔
      (∀ name, name ∈ terminatedHosts cfg ↔ name ∈ terminatedHosts (cfg.withTunnels clients hostnames)) ∧
      (∀ name, name ∈ offloadHosts cfg ↔ name ∈ offloadHosts (cfg.withTunnels clients hostnames)) ∧
      SameCovered (fromConfig cfg.hostnames cfg.upstreams)
        (fromConfig hostnames cfg.upstreams).tunnelHosts := by
  constructor
  · intro hanswers
    have hcovered := @sameCovered_of_answers cfg clients hostnames fun name => (hanswers _ name).upstream
    have hoffload : ∀ name, toAsciiLowercase name = name →
        (name ∈ offloadHosts cfg ↔ name ∈ offloadHosts (cfg.withTunnels clients hostnames)) := by
      intro name hlower
      rw [← isOffload_provisioned hlower, ← isOffload_provisioned hlower, (hanswers _ name).offload]
    refine ⟨fun name => ⟨fun hin => ?_, fun hin => ?_⟩,
      fun name => ⟨fun hin => ?_, fun hin => ?_⟩, hcovered⟩
    · exact mem_terminatedHosts_of_answers cfg (cfg.withTunnels clients hostnames) ht rfl hcovered hin
        (hanswers [] name).terminated
    · refine mem_terminatedHosts_of_answers (cfg.withTunnels clients hostnames) cfg ht rfl ?_ hin
        (hanswers [] name).terminated.symm
      exact fun name hlocal hfor => (hcovered name hlocal hfor).symm
    · exact (hoffload name (toAsciiLowercase_of_mem_hostsWith hin)).mp hin
    · exact (hoffload name (toAsciiLowercase_of_mem_hostsWith hin)).mpr hin
  · rintro ⟨hterm, hoff, hcovered⟩ ops h
    obtain ⟨hafter, hcovered'⟩ := after_withTunnels hterm hoff hcovered ops
    rw [hafter]
    exact sameAnswers_tunnelHosts hcovered' h

end

end RoutingTable

/-! ### The certs -/

namespace HostCerts

variable {ε κ : Type} {loadChain : CertFiles → Except ε κ} {cfg : ServerConfig} {certs : HostCerts κ}

theorem ownCert_eq (row : Text × TlsMode × Option PathBuf × Option PathBuf) :
    ownCert loadChain row =
      ((certFiles row.2.2.1 row.2.2.2).map fun files => (toAsciiLowercase row.1, files)).bind fun p =>
        (loadChain p.2).toOption.map fun certified => (p.1, certified) := by
  rw [ownCert]
  cases certFiles row.2.2.1 row.2.2.2 <;> rfl

theorem mem_certKeys_snd {files : CertFiles} : files ∈ cfg.certKeys.map Prod.snd ↔
    ∃ row ∈ cfg.hostCerts, certFiles row.2.2.1 row.2.2.2 = some files := by
  rw [ServerConfig.certKeys, List.mem_map]
  constructor
  · rintro ⟨p, hp, rfl⟩
    obtain ⟨row, hrow, hkey⟩ := List.mem_filterMap.mp hp
    obtain ⟨files, hfiles, rfl⟩ := Option.map_eq_some_iff.mp hkey
    exact ⟨row, hrow, hfiles⟩
  · rintro ⟨row, hrow, hfiles⟩
    refine ⟨(toAsciiLowercase row.1, files), List.mem_filterMap.mpr ⟨row, hrow, ?_⟩, rfl⟩
    rw [hfiles, Option.map_some]

theorem loadEntry_of_readable (st : Loading κ) {row : Text × TlsMode × Option PathBuf × Option PathBuf}
    (h : Readable loadChain row) : ∃ st', loadEntry loadChain st row = .ok st' := by
  unfold loadEntry
  cases hfiles : certFiles row.2.2.1 row.2.2.2 with
  | none => exact ⟨st, rfl⟩
  | some files =>
      obtain ⟨certified, hchain⟩ := h files hfiles
      dsimp only
      rw [hchain]
      cases st.loaded.lookup files with
      | none => exact ⟨_, rfl⟩
      | some certified' => exact ⟨_, rfl⟩

theorem loadEntries_of_readable {l : List (Text × TlsMode × Option PathBuf × Option PathBuf)}
    (h : ∀ row ∈ l, Readable loadChain row) (st : Loading κ) :
    ∃ st', l.foldlM (loadEntry loadChain) st = .ok st' := by
  induction l generalizing st with
  | nil => exact ⟨st, rfl⟩
  | cons row l ih =>
      obtain ⟨st₁, hrow⟩ := loadEntry_of_readable st (h row List.mem_cons_self)
      obtain ⟨st₂, hrest⟩ := ih (fun row' hrow' => h row' (List.mem_cons_of_mem _ hrow')) st₁
      refine ⟨st₂, ?_⟩
      rw [List.foldlM_cons, hrow]
      exact hrest

/-- The certs can be loaded exactly if all the files that entries set can be read. -/
theorem exists_load_iff : (∃ certs, load loadChain cfg = .ok certs) ↔
    ∀ files ∈ cfg.certKeys.map Prod.snd, ∃ certified, loadChain files = .ok certified := by
  constructor
  · rintro ⟨certs, hload⟩ files hfiles
    obtain ⟨row, hrow, hfiles⟩ := mem_certKeys_snd.mp hfiles
    exact (load_ok hload).1 row hrow files hfiles
  · intro hreadable
    have hrows : ∀ row ∈ cfg.hostCerts, Readable loadChain row := fun row hrow files hfiles =>
      hreadable files (mem_certKeys_snd.mpr ⟨row, hrow, hfiles⟩)
    obtain ⟨st, hst⟩ := loadEntries_of_readable hrows {}
    exact ⟨⟨st.certs⟩, by rw [load, hst]; rfl⟩

/-- The cert of a host is the one that the last entry for it sets. -/
theorem lookup_eq_last (hload : load loadChain cfg = .ok certs) (name : Text) :
    certs.map.lookup name =
      ((AssocMap.collect cfg.certKeys).lookup name).bind fun files => (loadChain files).toOption := by
  obtain ⟨-, hmap⟩ := load_ok hload
  have hreadable := exists_load_iff.mp ⟨certs, hload⟩
  rw [hmap, ← AssocMap.lookup_collect_filterMap, ServerConfig.certKeys, List.filterMap_filterMap]
  · simp only [ownCert_eq]
  · intro p hp
    obtain ⟨certified, hchain⟩ := hreadable p.2 (List.mem_map_of_mem hp)
    rw [hchain]
    rfl

/-- `select` asks the map and nothing else. -/
theorem select_congr {certs' : HostCerts κ} (h : ∀ name, certs.map.lookup name = certs'.map.lookup name)
    (host : Text) : certs.select host = certs'.select host := by
  simp only [select, h]

end HostCerts

namespace ServerConfig

variable {cfg : ServerConfig} {name : Text}

theorem mem_terminatedHostnames_map :
    name ∈ cfg.terminatedHostnames.map toAsciiLowercase ↔ name ∈ terminatedHosts cfg := by
  constructor
  · intro h
    obtain ⟨host, hhost, rfl⟩ := List.mem_map.mp h
    obtain ⟨row, hfiltered, rfl⟩ := List.mem_map.mp hhost
    obtain ⟨hrow, hmode⟩ := List.mem_filter.mp hfiltered
    rcases List.mem_append.mp hrow with hin | hin
    · obtain ⟨e, he, rfl⟩ := List.mem_map.mp hin
      exact mem_hostsWith.mpr (.inl ⟨e, he, hmode, rfl⟩)
    · obtain ⟨u, hu, rfl⟩ := List.mem_map.mp hin
      exact mem_hostsWith.mpr (.inr ⟨u, hu, hmode, rfl⟩)
  · intro h
    have hrows : ∀ row ∈ cfg.hostCerts, row.2.1.terminates = true →
        toAsciiLowercase row.1 ∈ cfg.terminatedHostnames.map toAsciiLowercase := fun row hrow hmode =>
      List.mem_map_of_mem (List.mem_map_of_mem (List.mem_filter.mpr ⟨hrow, hmode⟩))
    rcases mem_hostsWith.mp h with ⟨e, he, hmode, rfl⟩ | ⟨u, hu, hmode, rfl⟩
    · exact hrows _ (List.mem_append_left _ (List.mem_map_of_mem he)) hmode
    · exact hrows _ (List.mem_append_right _ (List.mem_map_of_mem hu)) hmode

/-- The hosts that the cert of the whole server names: terminated, no pattern, and without a cert. -/
theorem mem_sharedHostnames_map {κ : Type} {certs : HostCerts κ} :
    name ∈ (cfg.sharedHostnames certs).map toAsciiLowercase ↔
      name ∈ terminatedHosts cfg ∧ '*' ∉ name ∧ certs.select name = none := by
  have hhost : ∀ host, decide ('*' ∉ host ∧ certs.covers host = false) = true ↔
      '*' ∉ toAsciiLowercase host ∧ certs.select (toAsciiLowercase host) = none := by
    intro host
    rw [decide_eq_true_eq, mem_toAsciiLowercase (by decide), ← HostCerts.covers_eq_false,
      HostCerts.covers_congr (toAsciiLowercase_idem host)]
  rw [← mem_terminatedHostnames_map, sharedHostnames, List.mem_map, List.mem_map]
  constructor
  · rintro ⟨host, hin, rfl⟩
    obtain ⟨hterm, hshared⟩ := List.mem_filter.mp hin
    exact ⟨⟨host, hterm, rfl⟩, (hhost host).mp hshared⟩
  · rintro ⟨⟨host, hterm, rfl⟩, hshared⟩
    exact ⟨host, List.mem_filter.mpr ⟨hterm, (hhost host).mpr hshared⟩, rfl⟩

/-- **Which hostnames leave the certs alone.** -/
theorem sameCerts_iff {cfg' : ServerConfig} :
    (∀ (ε κ : Type) (loadChain : CertFiles → Except ε κ), SameCerts loadChain cfg cfg') ↔
      (∀ name, name ∈ terminatedHosts cfg ↔ name ∈ terminatedHosts cfg') ∧
      (∀ name, (AssocMap.collect cfg.certKeys).lookup name =
        (AssocMap.collect cfg'.certKeys).lookup name) ∧
      ∀ files, files ∈ cfg.certKeys.map Prod.snd ↔ files ∈ cfg'.certKeys.map Prod.snd := by
  constructor
  · intro hsame
    refine ⟨fun name => ?_, fun name => ?_, fun files => ?_⟩
    · rw [← mem_terminatedHostnames_map, ← mem_terminatedHostnames_map]
      exact (hsame Unit CertFiles .ok).terminated name
    · -- where each cert is the pair of its files, the maps are those of the files
      have hloads : ∀ cfg : ServerConfig, ∃ certs, HostCerts.load (ε := Unit) .ok cfg = .ok certs :=
        fun cfg => HostCerts.exists_load_iff.mpr fun files _ => ⟨files, rfl⟩
      obtain ⟨certs, hload⟩ := hloads cfg
      obtain ⟨certs', hload'⟩ := hloads cfg'
      have hlookup := (hsame Unit CertFiles .ok).certs certs certs' hload hload' name
      rw [HostCerts.lookup_eq_last hload, HostCerts.lookup_eq_last hload'] at hlookup
      simpa [Except.toOption] using hlookup
    · -- where only these files cannot be read, a load fails exactly if an entry sets them
      have hloads := (hsame Unit CertFiles fun f => if f = files then .error () else .ok f).loads
      have hfails : ∀ cfg : ServerConfig, (∃ certs, HostCerts.load
          (fun f => if f = files then .error () else (.ok f : Except Unit CertFiles)) cfg = .ok certs) ↔
          files ∉ cfg.certKeys.map Prod.snd := by
        intro cfg
        rw [HostCerts.exists_load_iff]
        constructor
        · intro hreadable hin
          obtain ⟨certified, hok⟩ := hreadable files hin
          rw [if_pos rfl] at hok
          cases hok
        · intro hnot f hf
          refine ⟨f, if_neg ?_⟩
          rintro rfl
          exact hnot hf
      rwa [hfails, hfails, not_iff_not] at hloads
  · rintro ⟨hterm, hcerts, hfiles⟩ ε κ loadChain
    have hlookup : ∀ certs certs', HostCerts.load loadChain cfg = .ok certs →
        HostCerts.load loadChain cfg' = .ok certs' →
        ∀ name, certs.map.lookup name = certs'.map.lookup name := by
      intro certs certs' hload hload' name
      rw [HostCerts.lookup_eq_last hload, HostCerts.lookup_eq_last hload', hcerts]
    refine ⟨?_, hlookup, fun name => ?_, fun certs certs' hload hload' name => ?_⟩
    · rw [HostCerts.exists_load_iff, HostCerts.exists_load_iff]
      exact forall_congr' fun files => imp_congr_left (hfiles files)
    · rw [mem_terminatedHostnames_map, mem_terminatedHostnames_map, hterm]
    · rw [mem_sharedHostnames_map, mem_sharedHostnames_map, hterm,
        HostCerts.select_congr (hlookup certs certs' hload hload')]

/-! ### The two configurations -/

/-- **When dynamic mode ignores the clients and hostnames of the configuration.** -/
theorem ignores_tunnels_iff (cfg : ServerConfig) (clients : List ClientEntry)
    (hostnames : List HostnameEntry) :
    IgnoresTunnels cfg (cfg.withTunnels clients hostnames) ↔
      TunnelsMatch cfg (cfg.withTunnels clients hostnames) := by
  have hvalid := validateDynamic_iff cfg
  have hvalid' : (cfg.withTunnels clients hostnames).validateDynamic = .ok () ↔
      (cfg.withTunnels [] []).validateDynamic = .ok () ∧ (cfg.withTunnels clients hostnames).HostnamesOk :=
    validateDynamic_iff (cfg.withTunnels clients hostnames)
  constructor
  · intro hignores hrest
    have hverdict := hignores.verdict
    rw [hvalid, hvalid', and_congr_right_iff] at hverdict
    refine ⟨hverdict hrest, fun hok _ => ?_⟩
    have haccepted := hvalid.mpr ⟨hrest, hok⟩
    have ht := (validateDynamic_ok haccepted).2
    obtain ⟨hterm, hoffload, hcovered⟩ := (sameAnswers_iff ht).mp (hignores.answers haccepted)
    obtain ⟨-, hcerts, hfiles⟩ := sameCerts_iff.mp (hignores.certs haccepted)
    exact ⟨hterm, hoffload, (sameCovered_iff ht).mp hcovered, hcerts, hfiles⟩
  · intro hmatch
    have huse : cfg.validateDynamic = .ok () →
        cfg.HasTargets ∧ SameUse cfg (cfg.withTunnels clients hostnames) := by
      intro haccepted
      obtain ⟨hrest, hok⟩ := hvalid.mp haccepted
      obtain ⟨hiff, hsame⟩ := hmatch hrest
      exact ⟨(validateDynamic_ok haccepted).2, hsame hok (hiff.mp hok)⟩
    refine ⟨?_, fun haccepted => ?_, fun haccepted => ?_⟩
    · rw [hvalid, hvalid', and_congr_right_iff]
      exact fun hrest => (hmatch hrest).1
    · obtain ⟨ht, hsame⟩ := huse haccepted
      have hcovered := (sameCovered_iff ht).mpr hsame.covered
      exact (sameAnswers_iff ht).mpr ⟨hsame.terminated, hsame.offload, hcovered⟩
    · obtain ⟨-, hsame⟩ := huse haccepted
      exact sameCerts_iff.mpr ⟨hsame.terminated, hsame.certs, hsame.files⟩

/-- One ignored hostname under a catch-all upstream takes its host away from the upstream; one that is
a pattern keeps the server from starting. -/
theorem tunnels_not_ignored :
    let app : HostnameEntry := ⟨"app".toList, ['a'], .passthrough, none, none⟩
    let pattern : HostnameEntry := ⟨"*.app".toList, ['a'], .passthrough, none, none⟩
    catchAll.validateDynamic = .ok () ∧ (catchAll.withTunnels [] [app]).validateDynamic = .ok () ∧
      (after catchAll []).isTerminated "app".toList = true ∧
      (after (catchAll.withTunnels [] [app]) []).isTerminated "app".toList = false ∧
      (catchAll.withTunnels [] [pattern]).validateDynamic = .error (.hostPattern "*.app".toList) ∧
      ¬ IgnoresTunnels catchAll (catchAll.withTunnels [] [app]) ∧
      ¬ IgnoresTunnels catchAll (catchAll.withTunnels [] [pattern]) := by
  refine ⟨rfl, by decide, by decide, by decide, by decide, fun h => ?_, fun h => ?_⟩
  · exact absurd (h.answers rfl [] "app".toList).terminated (by decide)
  · exact absurd (h.verdict.mp rfl) (by decide)

end ServerConfig

end Tuyau
