import Tuyau.HostEntries

/-! # The certs that entries set for themselves

A hostname or upstream entry may name a cert and a key file of its own.  `HostCerts.load` reads
those files into a map from lower-case hosts to certs, each pair of files once, and
`HostCerts.select` finds the cert of an SNI there: at the host itself, else at its `*.parent`
pattern, else at `*`.  A host without a cert is left to the resolver of the whole server.

The routing table and `select` try the same patterns, but the table over all entries and `select`
over those with a cert only; and `select` drops the dots at the end of the SNI while the table does
not.  `select_eq` reads `select` back as a search through the configuration, and `routingEntry_eq`
does the same for the entry that routes a host.  **`served_cert_iff`** compares the two: the served
cert is that of the entry that routes the host exactly when an entry without a cert is not covered
by a wider one that has a cert, and the two names of an SNI that ends in a dot agree. -/

namespace Tuyau

open AsciiText

/-! ### Searches for a first match -/

section FirstMatch

variable {α β γ : Type} {f : α → Option β} {g : β → Option γ} {l : List α}

/-- What the first match gives is what the search for a composed match gives. -/
theorem findSome_bind_of_some {c : γ} (h : (l.findSome? f).bind g = some c) :
    l.findSome? (fun a => (f a).bind g) = some c := by
  induction l with
  | nil => simp at h
  | cons a l ih =>
      rw [List.findSome?_cons] at h ⊢
      cases hf : f a with
      | none =>
          rw [hf] at h
          simpa using ih h
      | some b =>
          rw [hf] at h
          have hg : g b = some c := h
          simp [hg]

/-- A search for a composed match, where the second part never fails. -/
theorem findSome_bind (hg : ∀ a ∈ l, ∀ b, f a = some b → (g b).isSome) :
    l.findSome? (fun a => (f a).bind g) = (l.findSome? f).bind g := by
  cases h : (l.findSome? f).bind g with
  | some c => exact findSome_bind_of_some h
  | none =>
      have hnone : l.findSome? f = none := by
        cases hb : l.findSome? f with
        | none => rfl
        | some b =>
            obtain ⟨a, ha, hfa⟩ := List.exists_of_findSome?_eq_some hb
            have hsome := hg a ha b hfa
            rw [hb, Option.bind_some] at h
            rw [h] at hsome
            cases hsome
      rw [List.findSome?_eq_none_iff] at hnone ⊢
      intro a ha
      rw [hnone a ha, Option.bind_none]

end FirstMatch

theorem toOption_eq_some {ε α : Type} {x : Except ε α} {a : α} : x.toOption = some a ↔ x = .ok a := by
  cases x <;> simp [Except.toOption]

/-! ### Loading -/

/-- The cert file and the key file of an entry. -/
abbrev CertFiles := PathBuf × PathBuf

/-- The two files of an entry that sets both. -/
def certFiles : Option PathBuf → Option PathBuf → Option CertFiles
  | some certFile, some keyFile => some (certFile, keyFile)
  | _, _ => none

/-- The certs of entries, by lower-case host. -/
structure HostCerts (κ : Type) where
  map : AssocMap Text κ := ∅

namespace HostCerts

/-- The state of the loop of `load`: the files read so far and the certs of the hosts. -/
structure Loading (κ : Type) where
  loaded : AssocMap CertFiles κ := ∅
  certs : AssocMap Text κ := ∅

variable {ε κ : Type} (loadChain : CertFiles → Except ε κ)

/-- One round of the loop of `load`.  An entry without both files is skipped. -/
def loadEntry (st : Loading κ) (entry : Text × TlsMode × Option PathBuf × Option PathBuf) :
    Except ε (Loading κ) :=
  match certFiles entry.2.2.1 entry.2.2.2 with
  | none => .ok st
  | some files =>
      match st.loaded.lookup files with
      | some certified =>
          .ok { st with certs := AList.insert (toAsciiLowercase entry.1) certified st.certs }
      | none =>
          match loadChain files with
          | .error e => .error e
          | .ok certified =>
              .ok { loaded := AList.insert files certified st.loaded,
                    certs := AList.insert (toAsciiLowercase entry.1) certified st.certs }

/-- Read the certs of all entries; one that cannot be read fails the whole load. -/
def load (cfg : ServerConfig) : Except ε (HostCerts κ) := do
  let st ← cfg.hostCerts.foldlM (loadEntry loadChain) {}
  return ⟨st.certs⟩

/-- The name under which `select` searches for an SNI. -/
def selectName (host : Text) : Text := toAsciiLowercase (trimEndMatches '.' host)

/-- The cert of a host: its own, else that of its wildcard, else that of `*`. -/
def select (certs : HostCerts κ) (host : Text) : Option κ :=
  (hostPatterns (selectName host)).findSome? fun pattern => certs.map.lookup pattern

/-- Whether a host has a cert here. -/
def covers (certs : HostCerts κ) (host : Text) : Bool := (certs.select host).isSome

theorem covers_eq_false {certs : HostCerts κ} {host : Text} :
    certs.covers host = false ↔ certs.select host = none := by
  rw [covers, Option.isSome_eq_false_iff, Option.isNone_iff_eq_none]

/-- Letter case does not matter to `select`. -/
theorem selectName_congr {host host' : Text} (h : toAsciiLowercase host = toAsciiLowercase host') :
    selectName host = selectName host' := by
  rw [selectName, selectName, toAsciiLowercase_trimEndMatches (by decide),
    toAsciiLowercase_trimEndMatches (by decide), h]

theorem covers_congr {certs : HostCerts κ} {host host' : Text}
    (h : toAsciiLowercase host = toAsciiLowercase host') : certs.covers host = certs.covers host' := by
  rw [covers, covers, select, select, selectName_congr h]

end HostCerts

/-- The resolver that answers a hello in the end: a fixed cert, or an ACME resolver, given by the
hostnames its order names. -/
inductive Answer (κ : Type) where
  | static (certified : κ)
  | acme (hostnames : List Text)
deriving DecidableEq

namespace HostCerts

variable {κ : Type}

/-- Serve these certs by SNI and ask `default` for the other hosts. -/
def resolver (certs : HostCerts κ) (default : Option Text → Answer κ) (sni : Option Text) : Answer κ :=
  if certs.map.entries.isEmpty then default sni
  else
    match sni.bind certs.select with
    | some certified => .static certified
    | none => default sni

/-- The test for an empty map saves a search and changes no answer. -/
theorem resolver_eq (certs : HostCerts κ) (default : Option Text → Answer κ) (sni : Option Text) :
    certs.resolver default sni = ((sni.bind certs.select).map .static).getD (default sni) := by
  unfold resolver
  split_ifs with hempty
  · have hnone : ∀ host, certs.select host = none := by
      intro host
      refine List.findSome?_eq_none_iff.mpr fun pattern _ => ?_
      rw [AList.lookup_eq_none, AList.mem_keys, AList.keys, List.isEmpty_iff.mp hempty]
      exact List.not_mem_nil
    cases sni with
    | none => rfl
    | some host => simp [hnone]
  · cases sni.bind certs.select <;> rfl

end HostCerts

/-! ### What `load` puts in the map -/

/-- The pair that an entry adds to the map of certs. -/
def ownCert {ε κ : Type} (loadChain : CertFiles → Except ε κ)
    (entry : Text × TlsMode × Option PathBuf × Option PathBuf) : Option (Text × κ) :=
  (certFiles entry.2.2.1 entry.2.2.2).bind fun files =>
    (loadChain files).toOption.map fun certified => (toAsciiLowercase entry.1, certified)

namespace HostCerts

variable {ε κ : Type} {loadChain : CertFiles → Except ε κ}

/-- Every cert kept from an earlier round is what the files hold. -/
def Loading.Faithful (loadChain : CertFiles → Except ε κ) (st : Loading κ) : Prop :=
  ∀ files certified, st.loaded.lookup files = some certified → loadChain files = .ok certified

/-- An entry that names both files names files that can be read. -/
def Readable (loadChain : CertFiles → Except ε κ)
    (entry : Text × TlsMode × Option PathBuf × Option PathBuf) : Prop :=
  ∀ files, certFiles entry.2.2.1 entry.2.2.2 = some files → ∃ certified, loadChain files = .ok certified

/-- A round of the loop adds the cert of the entry, if it has one. -/
theorem loadEntry_ok {st st' : Loading κ}
    {entry : Text × TlsMode × Option PathBuf × Option PathBuf} (hst : st.Faithful loadChain)
    (h : loadEntry loadChain st entry = .ok st') :
    st'.Faithful loadChain ∧ Readable loadChain entry ∧
      st'.certs = (ownCert loadChain entry).toList.foldl (fun m p => AList.insert p.1 p.2 m) st.certs := by
  unfold loadEntry at h
  cases hfiles : certFiles entry.2.2.1 entry.2.2.2 with
  | none =>
      rw [hfiles] at h
      obtain rfl := Except.ok.inj h
      exact ⟨hst, by simp [Readable, hfiles], by simp [ownCert, hfiles]⟩
  | some files =>
      rw [hfiles] at h
      dsimp only at h
      cases hloaded : st.loaded.lookup files with
      | some certified =>
          rw [hloaded] at h
          obtain rfl := Except.ok.inj h
          have hchain := hst files certified hloaded
          exact ⟨hst, by simp [Readable, hfiles, hchain], by simp [ownCert, hfiles, hchain, Except.toOption]⟩
      | none =>
          rw [hloaded] at h
          dsimp only at h
          cases hchain : loadChain files with
          | error e =>
              rw [hchain] at h
              cases h
          | ok certified =>
              rw [hchain] at h
              obtain rfl := Except.ok.inj h
              refine ⟨?_, by simp [Readable, hfiles, hchain], by simp [ownCert, hfiles, hchain, Except.toOption]⟩
              intro files' certified' hlookup
              rw [AssocMap.lookup_insert_eq_ite] at hlookup
              split_ifs at hlookup with heq
              · rw [heq, hchain, Option.some.inj hlookup]
              · exact hst files' certified' hlookup

theorem loadEntries_ok {l : List (Text × TlsMode × Option PathBuf × Option PathBuf)}
    {st st' : Loading κ} (hst : st.Faithful loadChain)
    (h : l.foldlM (loadEntry loadChain) st = .ok st') :
    (∀ entry ∈ l, Readable loadChain entry) ∧
      st'.certs = (l.filterMap (ownCert loadChain)).foldl (fun m p => AList.insert p.1 p.2 m) st.certs := by
  induction l generalizing st with
  | nil =>
      obtain rfl := Except.ok.inj h
      exact ⟨by simp, rfl⟩
  | cons entry l ih =>
      rw [List.foldlM_cons] at h
      obtain ⟨st₁, hentry, hrest⟩ := bind_eq_ok.mp h
      obtain ⟨hst₁, hreadable, hcerts₁⟩ := loadEntry_ok hst hentry
      obtain ⟨hall, hcerts⟩ := ih hst₁ hrest
      refine ⟨List.forall_mem_cons.mpr ⟨hreadable, hall⟩, ?_⟩
      rw [hcerts, hcerts₁, List.filterMap_cons]
      cases ownCert loadChain entry <;> rfl

/-- The map that `load` returns, and that all files named by the configuration can be read. -/
theorem load_ok {cfg : ServerConfig} {certs : HostCerts κ} (h : load loadChain cfg = .ok certs) :
    (∀ entry ∈ cfg.hostCerts, Readable loadChain entry) ∧
      certs.map = AssocMap.collect (cfg.hostCerts.filterMap (ownCert loadChain)) := by
  obtain ⟨st, hst, hret⟩ := bind_eq_ok.mp h
  obtain rfl := Except.ok.inj hret
  exact loadEntries_ok (fun _ _ h => by simp at h) hst

end HostCerts

/-! ### The certs, read off the configuration -/

/-- The files of the cert that an entry sets for itself. -/
def ConfigEntry.certFiles : ConfigEntry → Option CertFiles
  | .hostname e => Tuyau.certFiles e.tlsCertFile e.tlsKeyFile
  | .upstream u => Tuyau.certFiles u.tlsCertFile u.tlsKeyFile

/-- The row of an entry in `hostCerts`. -/
def ConfigEntry.row : ConfigEntry → Text × TlsMode × Option PathBuf × Option PathBuf
  | .hostname e => (e.host, e.tlsMode, e.tlsCertFile, e.tlsKeyFile)
  | .upstream u => (u.host, u.tlsMode, u.tlsCertFile, u.tlsKeyFile)

theorem ConfigEntry.certFiles_row (entry : ConfigEntry) :
    Tuyau.certFiles entry.row.2.2.1 entry.row.2.2.2 = entry.certFiles := by
  cases entry <;> rfl

/-- The cert that an entry sets for itself. -/
def ConfigEntry.cert {ε κ : Type} (loadChain : CertFiles → Except ε κ) (entry : ConfigEntry) : Option κ :=
  entry.certFiles.bind fun files => (loadChain files).toOption

namespace ServerConfig

/-- The cert files of the entry that is `pattern` up to letter case. -/
def certFilesAt (cfg : ServerConfig) (pattern : Text) : Option CertFiles :=
  (cfg.exactEntry pattern).bind ConfigEntry.certFiles

/-- The cert files of the first entry for `name` that sets any: `name`, its wildcard, `*`. -/
def certFilesFor (cfg : ServerConfig) (name : Text) : Option CertFiles :=
  (hostPatterns name).findSome? cfg.certFilesAt

variable {cfg : ServerConfig} {name : Text}

/-- The tunnel hostnames of an accepted configuration match no pattern. -/
theorem hostnameAt_star (hplain : cfg.PlainHostnames) (rest : Text) :
    cfg.hostnameAt ('*' :: rest) = none := by
  refine hostnameAt_eq_none.mpr fun e he heq => hplain e he ?_
  rw [← mem_toAsciiLowercase (d := '*') (by decide), heq]
  exact List.mem_cons_self

theorem exactEntry_star (hplain : cfg.PlainHostnames) (rest : Text) :
    cfg.exactEntry ('*' :: rest) = (cfg.upstreamAt ('*' :: rest)).map .upstream := by
  rw [exactEntry, hostnameAt_star hplain, Option.map_none, Option.or_none]

/-- The entry that routes a host is the first entry among the patterns of its name. -/
theorem routingEntry_eq (hplain : cfg.PlainHostnames) (h : Text) :
    cfg.routingEntry h = (hostPatterns (toAsciiLowercase h)).findSome? cfg.exactEntry := by
  rw [routingEntry, wildcardEntry, parentPattern, hostPatterns]
  cases splitOnce '.' (toAsciiLowercase h) with
  | none =>
      simp only [Option.map_none, Option.bind_none, Option.none_or, List.append_nil, List.cons_append,
        List.nil_append, List.findSome?_cons, List.findSome?_nil, exactEntry_star hplain]
      cases cfg.exactEntry (toAsciiLowercase h) <;> cases cfg.upstreamAt ['*'] <;> rfl
  | some p =>
      simp only [Option.map_some, Option.bind_some, List.cons_append, List.nil_append,
        List.findSome?_cons, List.findSome?_nil, exactEntry_star hplain]
      cases cfg.exactEntry (toAsciiLowercase h) <;> cases cfg.upstreamAt ('*' :: '.' :: p.2) <;>
        cases cfg.upstreamAt ['*'] <;> rfl

/-- The rows that certs are loaded from, by the entry they come from. -/
theorem mem_hostCerts_iff (hd : cfg.HostsDistinct) {row : Text × TlsMode × Option PathBuf × Option PathBuf} :
    row ∈ cfg.hostCerts ∧ toAsciiLowercase row.1 = name ↔
      ∃ entry, cfg.exactEntry name = some entry ∧ entry.row = row := by
  simp only [exactEntry_eq_some hd, hostCerts, List.mem_append, List.mem_map]
  constructor
  · rintro ⟨⟨e, he, rfl⟩ | ⟨u, hu, rfl⟩, hname⟩
    · exact ⟨.hostname e, .inr ⟨e, he, hname, rfl⟩, rfl⟩
    · exact ⟨.upstream u, .inl ⟨u, hu, hname, rfl⟩, rfl⟩
  · rintro ⟨entry, ⟨u, hu, hname, rfl⟩ | ⟨e, he, hname, rfl⟩, rfl⟩
    · exact ⟨.inr ⟨u, hu, rfl⟩, hname⟩
    · exact ⟨.inl ⟨e, he, rfl⟩, hname⟩

end ServerConfig

namespace HostCerts

variable {ε κ : Type} {loadChain : CertFiles → Except ε κ} {cfg : ServerConfig} {certs : HostCerts κ}

theorem keys_ownCert_sublist (l : List (Text × TlsMode × Option PathBuf × Option PathBuf)) :
    ((l.filterMap (ownCert loadChain)).map Prod.fst).Sublist (l.map fun row => toAsciiLowercase row.1) := by
  induction l with
  | nil => exact List.Sublist.refl _
  | cons row l ih =>
      rw [List.filterMap_cons, List.map_cons]
      cases hown : ownCert loadChain row with
      | none => exact ih.cons _
      | some p =>
          obtain ⟨files, -, hp⟩ := Option.bind_eq_some_iff.mp hown
          obtain ⟨certified, -, rfl⟩ := Option.map_eq_some_iff.mp hp
          exact ih.cons_cons _

/-- The map of certs is a search through the configuration. -/
theorem lookup_certs (hd : cfg.HostsDistinct) (hload : load loadChain cfg = .ok certs) (pattern : Text) :
    certs.map.lookup pattern =
      (cfg.certFilesAt pattern).bind fun files => (loadChain files).toOption := by
  obtain ⟨-, hmap⟩ := load_ok hload
  have hkeys : ((cfg.hostCerts.filterMap (ownCert loadChain)).map Prod.fst).Nodup := by
    refine List.Nodup.sublist (keys_ownCert_sublist _) ?_
    simpa [ServerConfig.hostCerts, ServerConfig.HostsDistinct, Function.comp_def] using hd
  apply Option.ext
  intro certified
  have hmem : certs.map.lookup pattern = some certified ↔
      (pattern, certified) ∈ cfg.hostCerts.filterMap (ownCert loadChain) := by
    rw [hmap]
    exact ⟨AssocMap.mem_of_lookup_collect, AssocMap.lookup_collect_of_nodup hkeys⟩
  rw [hmem, List.mem_filterMap]
  simp only [ownCert, Option.bind_eq_some_iff, Option.map_eq_some_iff, Prod.mk.injEq,
    ServerConfig.certFilesAt]
  constructor
  · rintro ⟨row, hrow, files, hfiles, _, hchain, hname, rfl⟩
    obtain ⟨entry, hentry, rfl⟩ := (ServerConfig.mem_hostCerts_iff hd).mp ⟨hrow, hname⟩
    exact ⟨files, ⟨entry, hentry, by rw [← hfiles, entry.certFiles_row]⟩, hchain⟩
  · rintro ⟨files, ⟨entry, hentry, hfiles⟩, hchain⟩
    obtain ⟨hrow, hname⟩ := (ServerConfig.mem_hostCerts_iff hd).mpr ⟨entry, hentry, rfl⟩
    exact ⟨entry.row, hrow, files, by rw [entry.certFiles_row, hfiles], certified, hchain, hname, rfl⟩

/-- All cert files that an entry sets were read. -/
theorem exists_chain (hd : cfg.HostsDistinct) (hload : load loadChain cfg = .ok certs) {pattern : Text}
    {files : CertFiles} (hfiles : cfg.certFilesAt pattern = some files) :
    ∃ certified, loadChain files = .ok certified := by
  obtain ⟨hreadable, -⟩ := load_ok hload
  obtain ⟨entry, hentry, hfiles⟩ := Option.bind_eq_some_iff.mp hfiles
  obtain ⟨hrow, -⟩ := (ServerConfig.mem_hostCerts_iff hd).mpr ⟨entry, hentry, rfl⟩
  exact hreadable entry.row hrow files (by rw [entry.certFiles_row, hfiles])

/-- `select` is a search through the configuration. -/
theorem select_eq (hd : cfg.HostsDistinct) (hload : load loadChain cfg = .ok certs) (host : Text) :
    certs.select host =
      (cfg.certFilesFor (selectName host)).bind fun files => (loadChain files).toOption := by
  rw [select, ServerConfig.certFilesFor, ← findSome_bind]
  · simp only [lookup_certs hd hload]
  · intro pattern _ files hfiles
    obtain ⟨certified, hchain⟩ := exists_chain hd hload hfiles
    simp [hchain, Except.toOption]

end HostCerts

/-! ### The served cert and the entry that routes the host -/

/-- When the cert of a host is that of the entry that routes it.  If this entry sets no cert, no
entry may set one at a pattern that `select` tries; if it does, nothing is asked of an SNI without a
dot at its end, and for one with a dot the first cert of the trimmed name has to be the same. -/
def CertFollowsRoute {ε κ : Type} (loadChain : CertFiles → Except ε κ) (cfg : ServerConfig)
    (h : Text) : Prop :=
  match (cfg.routingEntry h).bind ConfigEntry.certFiles with
  | none => ∀ pattern ∈ hostPatterns (HostCerts.selectName h), cfg.certFilesAt pattern = none
  | some files =>
      h.getLast? = some '.' → ∃ files', cfg.certFilesFor (HostCerts.selectName h) = some files' ∧
        loadChain files' = loadChain files

section ServedCert

variable {ε κ : Type} {loadChain : CertFiles → Except ε κ} {cfg : ServerConfig} {certs : HostCerts κ}
  {h : Text} {files : CertFiles}

theorem certFilesFor_eq_none {name : Text} :
    cfg.certFilesFor name = none ↔ ∀ pattern ∈ hostPatterns name, cfg.certFilesAt pattern = none :=
  List.findSome?_eq_none_iff

theorem exists_certFilesAt {name : Text} (hfiles : cfg.certFilesFor name = some files) :
    ∃ pattern, cfg.certFilesAt pattern = some files := by
  obtain ⟨pattern, -, hpattern⟩ := List.exists_of_findSome?_eq_some hfiles
  exact ⟨pattern, hpattern⟩

/-- The cert of the entry that routes a host is the first one found under its untrimmed name. -/
theorem certFilesFor_of_routingEntry (hplain : cfg.PlainHostnames)
    (hfiles : (cfg.routingEntry h).bind ConfigEntry.certFiles = some files) :
    cfg.certFilesFor (toAsciiLowercase h) = some files := by
  rw [ServerConfig.routingEntry_eq hplain] at hfiles
  exact findSome_bind_of_some hfiles

/-- **The served cert is that of the entry that routes the host exactly when `CertFollowsRoute`.** -/
theorem served_cert_iff (hvalid : cfg.validate = .ok ()) (hd : cfg.HostsDistinct)
    (hload : HostCerts.load loadChain cfg = .ok certs) :
    certs.select h = (cfg.routingEntry h).bind (ConfigEntry.cert loadChain) ↔
      CertFollowsRoute loadChain cfg h := by
  have hplain := (ServerConfig.validate_ok hvalid).plain
  have hcert : (cfg.routingEntry h).bind (ConfigEntry.cert loadChain) =
      ((cfg.routingEntry h).bind ConfigEntry.certFiles).bind fun files => (loadChain files).toOption := by
    rw [Option.bind_assoc]
    rfl
  rw [hcert, HostCerts.select_eq hd hload, CertFollowsRoute]
  cases hfiles : (cfg.routingEntry h).bind ConfigEntry.certFiles with
  | none =>
      dsimp only
      rw [Option.bind_none, ← certFilesFor_eq_none, Option.bind_eq_none_iff]
      constructor
      · intro hnone
        refine Option.eq_none_iff_forall_ne_some.mpr fun files' hfiles' => ?_
        obtain ⟨pattern, hpattern⟩ := exists_certFilesAt hfiles'
        obtain ⟨certified, hchain⟩ := HostCerts.exists_chain hd hload hpattern
        have hread := hnone files' hfiles'
        rw [hchain] at hread
        cases hread
      · intro hnone files' hfiles'
        rw [hnone] at hfiles'
        cases hfiles'
  | some files =>
      dsimp only
      obtain ⟨pattern, hpattern⟩ := exists_certFilesAt (certFilesFor_of_routingEntry hplain hfiles)
      obtain ⟨certified, hchain⟩ := HostCerts.exists_chain hd hload hpattern
      rw [Option.bind_some, hchain]
      constructor
      · intro hselect _
        obtain ⟨files', hfiles', hread⟩ := Option.bind_eq_some_iff.mp hselect
        exact ⟨files', hfiles', toOption_eq_some.mp hread⟩
      · intro hcond
        by_cases hdot : h.getLast? = some '.'
        · obtain ⟨files', hfiles', hsame⟩ := hcond hdot
          rw [hfiles', Option.bind_some, hsame]
        · have hname : HostCerts.selectName h = toAsciiLowercase h := by
            rw [HostCerts.selectName, trimEndMatches_eq_self hdot]
          rw [hname, certFilesFor_of_routingEntry hplain hfiles, Option.bind_some, hchain]

end ServedCert

/-- A certless host beside a catch-all with a cert. -/
def catchAllConfig : ServerConfig where
  upstreams := [{ host := ['*'], localAddr := some (.v4 127 0 0 1 8080),
                  tlsCertFile := some [99], tlsKeyFile := some [107] },
                { host := "app".toList, localAddr := some (.v4 127 0 0 1 8081) }]

/-- Files that hold a cert named after them. -/
def readableFiles (files : CertFiles) : Except Unit CertFiles := .ok files

/-- A host without an entry is served the cert of the catch-all that routes it. -/
theorem served_cert_other : ∃ certs, HostCerts.load readableFiles catchAllConfig = .ok certs ∧
    certs.select "WWW".toList =
      (catchAllConfig.routingEntry "WWW".toList).bind (ConfigEntry.cert readableFiles) := by
  refine ⟨_, rfl, (served_cert_iff (by decide) (by decide) rfl).mpr ?_⟩
  intro hdot
  exact absurd hdot (by decide)

/-- The certless host is routed by its own entry and served the cert of the catch-all. -/
theorem served_cert_app : catchAllConfig.validate = .ok () ∧ catchAllConfig.HostsDistinct ∧
    ∃ certs, HostCerts.load readableFiles catchAllConfig = .ok certs ∧
      certs.select "app".toList = some ([99], [107]) ∧
      (catchAllConfig.routingEntry "app".toList).isSome = true ∧
      (catchAllConfig.routingEntry "app".toList).bind (ConfigEntry.cert readableFiles) = none :=
  ⟨by decide, by decide, _, rfl, by decide, by decide, by decide⟩

end Tuyau
