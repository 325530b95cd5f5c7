import Mathlib.Data.Finset.Basic
import Tuyau.Frame
import Tuyau.Net

/-! # The server configuration and its validation

The entries of a `ServerConfig` and the checks the server makes before it starts: `validate`
in static mode, where the file names the clients and their hostnames, and `validateDynamic`,
where a backend owns both.  Every check is a loop that stops at the first bad entry; the two
shapes of loop that occur are `insertAll`, which fills a set of names seen so far, and
`checkEach`, which tests each entry by itself.

`validate_ok` and `validateDynamic_ok` say what an accepted configuration has: names that are
pairwise distinct, one target per upstream, no pattern among the tunnel hostnames and no
hostname of an unknown client.  Uniqueness of hosts is checked on the text as written, so
two entries may still agree up to letter case. -/

namespace Tuyau

open AsciiText

/-- A path of the file system, as its bytes. -/
abbrev PathBuf := List UInt8

/-- What happens when several tunnels present the token of one client. -/
inductive Balance where
  | lastWriteWins
  | roundRobin
deriving DecidableEq, Repr

instance : Inhabited Balance := ⟨.lastWriteWins⟩

/-- A client and the token that authenticates it. -/
structure ClientEntry where
  name : Text
  token : Token
  balance : Balance := default
deriving DecidableEq

/-- A hostname served through the tunnels of a client. -/
structure HostnameEntry where
  host : Text
  client : Text
  tlsMode : TlsMode := default
  tlsCertFile : Option PathBuf := none
  tlsKeyFile : Option PathBuf := none
deriving DecidableEq

/-- A hostname, `*.name` or `*` served by a local address or socket. -/
structure UpstreamEntry where
  host : Text
  localAddr : Option SocketAddr := none
  localSocket : Option PathBuf := none
  tlsMode : TlsMode := default
  tlsCertFile : Option PathBuf := none
  tlsKeyFile : Option PathBuf := none
deriving DecidableEq

/-- The ACME parameter that validation reads. -/
structure AcmeSection where
  contact : Text
deriving DecidableEq

/-- The configuration, as far as routing and validation read it. -/
structure ServerConfig where
  clients : List ClientEntry := []
  hostnames : List HostnameEntry := []
  upstreams : List UpstreamEntry := []
  acme : Option AcmeSection := none
  clientCaFile : Option PathBuf := none
deriving DecidableEq

/-- Why a configuration is refused, with the text the error names. -/
inductive ConfigError where
  | noClients
  | duplicateClient (name : Text)
  | duplicateHost (host : Text)
  | unknownClient (host client : Text)
  | acmeContact (contact : Text)
  | upstreamTarget (host : Text)
  | hostCertPair (host : Text)
  | hostCertPassthrough (host : Text)
  | hostPattern (host : Text)
deriving DecidableEq

/-! ### The two loops -/

/-- Insert names into the set of those seen, failing at the first repeated one. -/
def insertAll (err : Text → ConfigError) : List Text → Finset Text → Except ConfigError (Finset Text)
  | [], seen => .ok seen
  | a :: l, seen => if a ∈ seen then .error (err a) else insertAll err l (insert a seen)

/-- Test the entries in order, failing with the error of the first bad one. -/
def checkEach {α : Type} (check : α → Option ConfigError) : List α → Except ConfigError Unit
  | [] => .ok ()
  | a :: l =>
      match check a with
      | some e => .error e
      | none => checkEach check l

theorem insertAll_ok {err : Text → ConfigError} {l : List Text} {seen seen' : Finset Text}
    (h : insertAll err l seen = .ok seen') :
    l.Nodup ∧ (∀ a ∈ l, a ∉ seen) ∧ ∀ a, a ∈ seen' ↔ a ∈ l ∨ a ∈ seen := by
  induction l generalizing seen with
  | nil =>
      cases h
      simp
  | cons a l ih =>
      rw [insertAll] at h
      split_ifs at h with ha
      obtain ⟨hnodup, hfresh, hmem⟩ := ih h
      have hal : a ∉ l := fun hin => hfresh a hin (Finset.mem_insert_self _ _)
      refine ⟨List.nodup_cons.mpr ⟨hal, hnodup⟩, ?_, ?_⟩
      · intro b hb
        rcases List.mem_cons.mp hb with rfl | hb
        · exact ha
        · exact fun hs => hfresh b hb (Finset.mem_insert_of_mem hs)
      · intro b
        rw [hmem, Finset.mem_insert, List.mem_cons]
        tauto

theorem checkEach_ok {α : Type} {check : α → Option ConfigError} {l : List α} :
    checkEach check l = .ok () ↔ ∀ a ∈ l, check a = none := by
  induction l with
  | nil => simp [checkEach]
  | cons a l ih =>
      rw [checkEach]
      cases h : check a with
      | some e => simp [h]
      | none => simp [h, ih]

theorem bind_eq_ok {ε α β : Type} {x : Except ε α} {f : α → Except ε β} {b : β} :
    x >>= f = .ok b ↔ ∃ a, x = .ok a ∧ f a = .ok b := by
  cases x with
  | error e => exact ⟨fun h => (nomatch h), fun ⟨_, h, _⟩ => (nomatch h)⟩
  | ok a => exact ⟨fun h => ⟨a, rfl, h⟩, fun ⟨_, h, hf⟩ => by cases h; exact hf⟩

/-! ### The checks -/

namespace ServerConfig

variable (cfg : ServerConfig)

/-- Each upstream names exactly one target. -/
def validateUpstreamTargets : Except ConfigError Unit :=
  checkEach (fun u =>
    if u.localAddr.isSome = u.localSocket.isSome then some (.upstreamTarget u.host) else none)
    cfg.upstreams

/-- The name an upstream host covers: nothing for `*`, `name` for `*.name`, else itself. -/
def patternName : Text → Option Text
  | ['*'] => none
  | '*' :: '.' :: name => some name
  | host => some host

/-- An upstream host is a name, `*.name` or `*`; a tunnel hostname is a name. -/
def validateHostPatterns : Except ConfigError Unit := do
  checkEach (fun h : HostnameEntry => if '*' ∈ h.host then some (.hostPattern h.host) else none)
    cfg.hostnames
  checkEach (fun u : UpstreamEntry =>
    match patternName u.host with
    | none => none
    | some name => if name = [] ∨ '*' ∈ name then some (.hostPattern u.host) else none)
    cfg.upstreams

/-- The host, mode, cert and key of each hostname and upstream entry. -/
def hostCerts : List (Text × TlsMode × Option PathBuf × Option PathBuf) :=
  cfg.hostnames.map (fun h => (h.host, h.tlsMode, h.tlsCertFile, h.tlsKeyFile)) ++
    cfg.upstreams.map (fun u => (u.host, u.tlsMode, u.tlsCertFile, u.tlsKeyFile))

/-- A cert comes with its key, and only in a mode where the server terminates TLS. -/
def validateHostCerts : Except ConfigError Unit :=
  checkEach (fun (host, mode, cert, key) =>
    if cert.isSome ≠ key.isSome then some (.hostCertPair host)
    else if cert.isSome ∧ mode = .passthrough then some (.hostCertPassthrough host)
    else none) cfg.hostCerts

/-- The ACME contact is a `mailto:` URL. -/
def validateAcme : Except ConfigError Unit :=
  match cfg.acme with
  | some acme =>
      if ['m', 'a', 'i', 'l', 't', 'o', ':'].isPrefixOf acme.contact then .ok ()
      else .error (.acmeContact acme.contact)
  | none => .ok ()

/-- Every tunnel hostname names a client of the configuration. -/
def validateKnownClients : Except ConfigError Unit :=
  let knownClients := cfg.clients.map ClientEntry.name
  checkEach (fun h : HostnameEntry =>
    if h.client ∈ knownClients then none else some (.unknownClient h.host h.client)) cfg.hostnames

/-- Validation in static mode. -/
def validate : Except ConfigError Unit := do
  if cfg.clients = [] ∧ cfg.upstreams = [] then throw .noClients
  let _ ← insertAll .duplicateClient (cfg.clients.map ClientEntry.name) ∅
  let seenHosts ← insertAll .duplicateHost (cfg.hostnames.map HostnameEntry.host) ∅
  let _ ← insertAll .duplicateHost (cfg.upstreams.map UpstreamEntry.host) seenHosts
  cfg.validateUpstreamTargets
  cfg.validateHostPatterns
  cfg.validateHostCerts
  cfg.validateKnownClients
  cfg.validateAcme

/-- Validation in dynamic mode: the backend owns clients and hostnames. -/
def validateDynamic : Except ConfigError Unit := do
  let _ ← insertAll .duplicateHost (cfg.upstreams.map UpstreamEntry.host) ∅
  cfg.validateUpstreamTargets
  cfg.validateHostPatterns
  cfg.validateHostCerts
  cfg.validateAcme

/-! ### What an accepted configuration has -/

variable {cfg}

/-- Every upstream of an accepted configuration names one target. -/
def HasTargets (cfg : ServerConfig) : Prop :=
  ∀ u ∈ cfg.upstreams, u.localAddr.isSome ≠ u.localSocket.isSome

/-- No tunnel hostname is a pattern. -/
def PlainHostnames (cfg : ServerConfig) : Prop := ∀ h ∈ cfg.hostnames, '*' ∉ h.host

theorem hasTargets_of_validateUpstreamTargets (h : cfg.validateUpstreamTargets = .ok ()) :
    cfg.HasTargets := by
  intro u hu heq
  have := checkEach_ok.mp h u hu
  simp [heq] at this

theorem plainHostnames_of_validateHostPatterns (h : cfg.validateHostPatterns = .ok ()) :
    cfg.PlainHostnames := by
  obtain ⟨_, h₁, -⟩ := bind_eq_ok.mp h
  intro e he hstar
  have := checkEach_ok.mp h₁ e he
  simp [hstar] at this

/-- Both validations check the certs of the entries. -/
theorem validateHostCerts_of_validate (h : cfg.validate = .ok ()) : cfg.validateHostCerts = .ok () := by
  simp only [validate] at h
  split_ifs at h with hne
  · exact nomatch h
  obtain ⟨_, -, h⟩ := bind_eq_ok.mp h
  obtain ⟨_, -, h⟩ := bind_eq_ok.mp h
  obtain ⟨_, -, h⟩ := bind_eq_ok.mp h
  obtain ⟨_, -, h⟩ := bind_eq_ok.mp h
  obtain ⟨_, -, h⟩ := bind_eq_ok.mp h
  obtain ⟨_, hcerts, -⟩ := bind_eq_ok.mp h
  exact hcerts

theorem validateHostCerts_of_validateDynamic (h : cfg.validateDynamic = .ok ()) :
    cfg.validateHostCerts = .ok () := by
  obtain ⟨_, -, h⟩ := bind_eq_ok.mp h
  obtain ⟨_, -, h⟩ := bind_eq_ok.mp h
  obtain ⟨_, -, h⟩ := bind_eq_ok.mp h
  obtain ⟨_, hcerts, -⟩ := bind_eq_ok.mp h
  exact hcerts

/-- The facts about an accepted static configuration that routing relies on. -/
structure Accepted (cfg : ServerConfig) : Prop where
  clients : (cfg.clients.map ClientEntry.name).Nodup
  hostnames : (cfg.hostnames.map HostnameEntry.host).Nodup
  upstreams : (cfg.upstreams.map UpstreamEntry.host).Nodup
  disjoint : ∀ u ∈ cfg.upstreams, ∀ h ∈ cfg.hostnames, u.host ≠ h.host
  targets : cfg.HasTargets
  plain : cfg.PlainHostnames
  known : ∀ h ∈ cfg.hostnames, ∃ c ∈ cfg.clients, c.name = h.client

theorem validate_ok (h : cfg.validate = .ok ()) : cfg.Accepted := by
  simp only [validate] at h
  split_ifs at h with hne
  · exact nomatch h
  obtain ⟨_, hclients, h⟩ := bind_eq_ok.mp h
  obtain ⟨seen, hhosts, h⟩ := bind_eq_ok.mp h
  obtain ⟨_, hups, h⟩ := bind_eq_ok.mp h
  obtain ⟨_, htargets, h⟩ := bind_eq_ok.mp h
  obtain ⟨_, hpatterns, h⟩ := bind_eq_ok.mp h
  obtain ⟨_, -, h⟩ := bind_eq_ok.mp h
  obtain ⟨_, hknown, -⟩ := bind_eq_ok.mp h
  obtain ⟨hnodup, -, hseen⟩ := insertAll_ok hhosts
  obtain ⟨hnodup', hfresh, -⟩ := insertAll_ok hups
  refine ⟨(insertAll_ok hclients).1, hnodup, hnodup', ?_,
    hasTargets_of_validateUpstreamTargets htargets,
    plainHostnames_of_validateHostPatterns hpatterns, ?_⟩
  · intro u hu e he heq
    refine hfresh u.host (List.mem_map_of_mem hu) ((hseen _).mpr (.inl ?_))
    exact heq ▸ List.mem_map_of_mem he
  · intro e he
    have := checkEach_ok.mp hknown e he
    split_ifs at this with hin
    exact List.mem_map.mp hin

theorem validateDynamic_ok (h : cfg.validateDynamic = .ok ()) :
    (cfg.upstreams.map UpstreamEntry.host).Nodup ∧ cfg.HasTargets := by
  obtain ⟨_, hups, h⟩ := bind_eq_ok.mp h
  obtain ⟨_, htargets, -⟩ := bind_eq_ok.mp h
  exact ⟨(insertAll_ok hups).1, hasTargets_of_validateUpstreamTargets htargets⟩

end ServerConfig

end Tuyau
