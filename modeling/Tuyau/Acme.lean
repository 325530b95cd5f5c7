import Tuyau.HostCerts

/-! # ACME certs of provisioned hosts

With an `[acme]` section the server orders its public certs itself.  At the start one combined order
names the terminated hosts of the configuration that have no cert of their own; every host that is
provisioned later (`setTerminatedDomains`) gets an order and a resolver for itself, kept by the
`AcmeController`.  A hello is answered by the cert of the host's own entry, else by the resolver of
the provisioned host, else by the combined one.

Each order that was started is recorded by the hostnames it names, which the program does not keep.
`ensureOne_cases` says what one domain of a call can change, and `Issues` is the invariant that
follows: besides the combined order there is one order for each domain in `added`, and none of them
is a host of the configuration.

The controller exists only if some entry of the configuration terminates TLS.
**`provisioned_issued_iff`**: every provisioned host is answered from an order that names it, and no
host is ordered twice, in all runs of a server exactly if the configuration has such an entry. -/

namespace Tuyau

open AsciiText

variable {ε κ : Type}

theorem map_eq_ok {α β : Type} {x : Except ε α} {f : α → β} {b : β} :
    x.map f = .ok b ↔ ∃ a, x = .ok a ∧ f a = b := by
  cases x <;> simp [Except.map]

/-! ### The controller -/

/-- The resolver of a new ACME state, which orders one cert for all of `hostnames`, or the error
with which it could not be started. -/
def buildAcmeState (started : Except ε Unit) (hostnames : List Text) : Except ε (Answer κ) :=
  started.map fun _ => .acme hostnames

/-- The ACME controller with the resolver it shares with the public listener. -/
structure AcmeController (κ : Type) where
  staticResolver : Answer κ
  dynamic : AssocMap Text (Answer κ) := ∅
  staticDomains : Finset Text
  added : Finset Text := ∅
  /-- The hostnames of each order started so far. -/
  orders : List (List Text)

namespace AcmeController

/-- One round of the loop of `ensure`, with what `buildAcmeState` meets if it is called. -/
def ensureOne (acme : AcmeController κ) (domain : Text × Except ε Unit) : AcmeController κ :=
  let d := toAsciiLowercase domain.1
  if d ∈ acme.staticDomains ∨ d ∈ acme.added then acme
  else
    let added := insert d acme.added
    match (buildAcmeState domain.2 [d] : Except ε (Answer κ)) with
    | .ok resolver =>
        { acme with added := added, dynamic := AList.insert d resolver acme.dynamic,
                    orders := acme.orders ++ [[d]] }
    | .error _ => { acme with added := added.erase d }

/-- Start an order for each domain that has none. -/
def ensure (acme : AcmeController κ) (domains : List (Text × Except ε Unit)) : AcmeController κ :=
  domains.foldl ensureOne acme

/-- The resolver of a provisioned host, else the static one. -/
def resolve (acme : AcmeController κ) : Option Text → Answer κ
  | some sni => (acme.dynamic.lookup (toAsciiLowercase sni)).getD acme.staticResolver
  | none => acme.staticResolver

end AcmeController

/-! ### The certs of the public listener -/

/-- The outside world the certs of a starting server come from. -/
structure CertSources (ε κ : Type) where
  loadChain : CertFiles → Except ε κ
  generatePublicCert : List Text → Except ε κ
  acmeStarted : Except ε Unit

/-- The resolver of the whole server. -/
inductive ServerResolver (κ : Type) where
  | single (resolver : Answer κ)
  | multi (acme : AcmeController κ)

namespace ServerResolver

def resolve : ServerResolver κ → Option Text → Answer κ
  | .single resolver, _ => resolver
  | .multi acme, sni => acme.resolve sni

def orders : ServerResolver κ → List (List Text)
  | .single _ => []
  | .multi acme => acme.orders

end ServerResolver

/-- The cert of the whole server without ACME: the one of the two files, else a self-signed one. -/
def buildFixedResolver (sources : CertSources ε κ) (tlsCertFile tlsKeyFile : Option PathBuf)
    (sharedHostnames : List Text) : Except ε (ServerResolver κ) :=
  match certFiles tlsCertFile tlsKeyFile with
  | some files => (sources.loadChain files).map fun certified => .single (.static certified)
  | none => (sources.generatePublicCert sharedHostnames).map fun certified => .single (.static certified)

/-- The resolver of the whole server.  Without a terminated host an `[acme]` section is ignored. -/
def buildCertResolver (sources : CertSources ε κ) (acme : Option AcmeSection)
    (tlsCertFile tlsKeyFile : Option PathBuf) (terminatedHostnames sharedHostnames : List Text) :
    Except ε (ServerResolver κ) :=
  if acme.isSome ∧ terminatedHostnames ≠ [] then
    if sharedHostnames = [] then do
      let certified ← sources.generatePublicCert []
      return .multi { staticResolver := .static certified, orders := [],
                      staticDomains := (terminatedHostnames.map toAsciiLowercase).toFinset }
    else do
      let resolver ← buildAcmeState sources.acmeStarted sharedHostnames
      return .multi { staticResolver := resolver, orders := [sharedHostnames],
                      staticDomains := (terminatedHostnames.map toAsciiLowercase).toFinset }
  else buildFixedResolver sources tlsCertFile tlsKeyFile sharedHostnames

/-- The hosts the server terminates TLS for, as the configuration spells them. -/
def ServerConfig.terminatedHostnames (cfg : ServerConfig) : List Text :=
  (cfg.hostCerts.filter fun row => row.2.1.terminates).map Prod.fst

/-- Those that the cert of the whole server has to name. -/
def ServerConfig.sharedHostnames (cfg : ServerConfig) (certs : HostCerts κ) : List Text :=
  cfg.terminatedHostnames.filter fun host => '*' ∉ host ∧ certs.covers host = false

/-- What the public listener and `set_terminated_domains` use of a running server. -/
structure PublicCerts (κ : Type) where
  hostCerts : HostCerts κ
  resolver : ServerResolver κ
  routes : RoutingTable

namespace PublicCerts

/-- The start of a server with a public listener. -/
def start (sources : CertSources ε κ) (cfg : ServerConfig) (tlsCertFile tlsKeyFile : Option PathBuf) :
    Except ε (PublicCerts κ) := do
  let hostCerts ← HostCerts.load sources.loadChain cfg
  let resolver ← buildCertResolver sources cfg.acme tlsCertFile tlsKeyFile cfg.terminatedHostnames
    (cfg.sharedHostnames hostCerts)
  return { hostCerts, resolver, routes := RoutingTable.fromConfig cfg.hostnames cfg.upstreams }

/-- The backend's terminated hostnames, each with what `buildAcmeState` meets if it is called. -/
def setTerminatedDomains (s : PublicCerts κ) (domains : List (Text × Except ε Unit)) : PublicCerts κ :=
  { s with
    resolver :=
      match s.resolver with
      | .single resolver => .single resolver
      | .multi acme => .multi (acme.ensure domains)
    routes := s.routes.setTerminated (domains.map Prod.fst) }

/-- The answer to a hello on the public listener. -/
def resolve (s : PublicCerts κ) : Option Text → Answer κ := s.hostCerts.resolver s.resolver.resolve

/-- The server after a sequence of calls. -/
def afterCalls (s : PublicCerts κ) (calls : List (List (Text × Except ε Unit))) : PublicCerts κ :=
  calls.foldl setTerminatedDomains s

end PublicCerts

/-! ### The orders of the controller -/

namespace AcmeController

variable {acme : AcmeController κ} {domain : Text × Except ε Unit}

/-- A domain of a call changes nothing, or it is new and gets its order and resolver. -/
theorem ensureOne_cases (acme : AcmeController κ) (domain : Text × Except ε Unit) :
    acme.ensureOne domain = acme ∧ (domain.2 = .ok () →
        toAsciiLowercase domain.1 ∈ acme.staticDomains ∨ toAsciiLowercase domain.1 ∈ acme.added) ∨
      domain.2 = .ok () ∧
        toAsciiLowercase domain.1 ∉ acme.staticDomains ∧ toAsciiLowercase domain.1 ∉ acme.added ∧
        acme.ensureOne domain =
          { acme with
            added := insert (toAsciiLowercase domain.1) acme.added
            dynamic := AList.insert (toAsciiLowercase domain.1) (.acme [toAsciiLowercase domain.1]) acme.dynamic
            orders := acme.orders ++ [[toAsciiLowercase domain.1]] } := by
  by_cases hknown : toAsciiLowercase domain.1 ∈ acme.staticDomains ∨ toAsciiLowercase domain.1 ∈ acme.added
  · exact .inl ⟨if_pos hknown, fun _ => hknown⟩
  · have hfresh := not_or.mp hknown
    unfold ensureOne
    rw [if_neg hknown]
    cases hstarted : domain.2 with
    | ok _ => exact .inr ⟨rfl, hfresh.1, hfresh.2, rfl⟩
    | error e =>
        -- the domain that was put into `added` is taken out again
        refine .inl ⟨?_, by simp⟩
        simp [buildAcmeState, Except.map, Finset.erase_insert hfresh.2]

/-- What the orders are: the combined one, if it names a host, and one for each of `issued`. -/
structure Issues (shared issued : List Text) (acme : AcmeController κ) : Prop where
  orders : acme.orders = (if shared = [] then [] else [shared]) ++ issued.map fun d => [d]
  nodup : issued.Nodup
  mem_added : ∀ d, d ∈ acme.added ↔ d ∈ issued
  new : ∀ d ∈ issued, d ∉ acme.staticDomains
  lowercase : ∀ d ∈ issued, toAsciiLowercase d = d
  lookup : ∀ d, acme.dynamic.lookup d = if d ∈ issued then some (.acme [d]) else none
  combined : shared ≠ [] → acme.staticResolver = .acme shared
  shared_static : ∀ host ∈ shared, toAsciiLowercase host ∈ acme.staticDomains

/-- A controller that has just been built. -/
theorem issues_nil {shared : List Text} (hdynamic : acme.dynamic = ∅) (hadded : acme.added = ∅)
    (horders : acme.orders = if shared = [] then [] else [shared])
    (hcombined : shared ≠ [] → acme.staticResolver = .acme shared)
    (hstatic : ∀ host ∈ shared, toAsciiLowercase host ∈ acme.staticDomains) :
    Issues shared [] acme := by
  refine ⟨?_, List.nodup_nil, ?_, ?_, ?_, ?_, hcombined, hstatic⟩
  · simp [horders]
  · simp [hadded]
  · simp
  · simp
  · simp [hdynamic]

theorem Issues.ensureOne {shared issued : List Text} (h : Issues shared issued acme)
    (domain : Text × Except ε Unit) :
    ∃ issued', Issues shared issued' (acme.ensureOne domain) ∧ issued ⊆ issued' ∧
      (acme.ensureOne domain).staticDomains = acme.staticDomains ∧
      (domain.2 = .ok () →
        toAsciiLowercase domain.1 ∈ acme.staticDomains ∨ toAsciiLowercase domain.1 ∈ issued') ∧
      ∀ x ∈ issued', x ∈ issued ∨ domain.2 = .ok () ∧ toAsciiLowercase domain.1 = x := by
  rcases ensureOne_cases acme domain with ⟨hsame, hknown⟩ | ⟨hok, hstatic, hadded, hnew⟩
  · rw [hsame]
    refine ⟨issued, h, List.Subset.refl _, rfl, fun hok => ?_, fun x hx => .inl hx⟩
    rw [← h.mem_added]
    exact hknown hok
  · have hissued : toAsciiLowercase domain.1 ∉ issued := fun hin => hadded ((h.mem_added _).mpr hin)
    rw [hnew]
    refine ⟨issued ++ [toAsciiLowercase domain.1], ⟨?_, ?_, ?_, ?_, ?_, ?_, h.combined, h.shared_static⟩,
      List.subset_append_left _ _, rfl, fun _ => .inr (by simp), ?_⟩
    · simp [h.orders]
    · exact List.nodup_append.mpr ⟨h.nodup, List.nodup_singleton _, by
        rintro d hd _ hd' rfl
        exact hissued (List.mem_singleton.mp hd' ▸ hd)⟩
    · intro d
      simp [h.mem_added, or_comm]
    · intro d hd
      rcases List.mem_append.mp hd with hd | hd
      · exact h.new d hd
      · exact List.mem_singleton.mp hd ▸ hstatic
    · intro d hd
      rcases List.mem_append.mp hd with hd | hd
      · exact h.lowercase d hd
      · rw [List.mem_singleton.mp hd, toAsciiLowercase_idem]
    · intro d
      dsimp only
      rw [AssocMap.lookup_insert_eq_ite, h.lookup]
      by_cases hd : d = toAsciiLowercase domain.1
      · simp [hd]
      · simp [hd]
    · intro x hx
      rcases List.mem_append.mp hx with hx | hx
      · exact .inl hx
      · exact .inr ⟨hok, (List.mem_singleton.mp hx).symm⟩

/-- A call keeps the invariant: each of its domains whose order started has one, and no other domain
gets one. -/
theorem Issues.ensure {shared issued : List Text} (h : Issues shared issued acme)
    (domains : List (Text × Except ε Unit)) :
    ∃ issued', Issues shared issued' (acme.ensure domains) ∧ issued ⊆ issued' ∧
      (acme.ensure domains).staticDomains = acme.staticDomains ∧
      (∀ d, (d, .ok ()) ∈ domains →
        toAsciiLowercase d ∈ acme.staticDomains ∨ toAsciiLowercase d ∈ issued') ∧
      ∀ x ∈ issued', x ∈ issued ∨ ∃ d, (d, .ok ()) ∈ domains ∧ toAsciiLowercase d = x := by
  induction domains generalizing acme issued with
  | nil => exact ⟨issued, h, List.Subset.refl _, rfl, fun _ hd => absurd hd List.not_mem_nil, fun x hx => .inl hx⟩
  | cons domain domains ih =>
      obtain ⟨issued₁, h₁, hsub₁, hstatic₁, hfirst, hfrom₁⟩ := h.ensureOne domain
      obtain ⟨issued₂, h₂, hsub₂, hstatic₂, hrest, hfrom₂⟩ := ih h₁
      refine ⟨issued₂, h₂, List.Subset.trans hsub₁ hsub₂, hstatic₂.trans hstatic₁, fun d hd => ?_, fun x hx => ?_⟩
      · rcases List.mem_cons.mp hd with rfl | hd
        · exact (hfirst rfl).imp_right fun hin => hsub₂ hin
        · rw [← hstatic₁]
          exact hrest d hd
      · rcases hfrom₂ x hx with hx | ⟨d, hd, rfl⟩
        · rcases hfrom₁ x hx with hx | ⟨hok, rfl⟩
          · exact .inl hx
          · exact .inr ⟨domain.1, hok ▸ List.mem_cons_self, rfl⟩
        · exact .inr ⟨d, List.mem_cons_of_mem _ hd, rfl⟩

end AcmeController

/-! ### Runs of the server -/

/-- Whether an order names a domain, up to letter case. -/
def namedBy (d : Text) (order : List Text) : Bool :=
  order.any fun host => toAsciiLowercase host = toAsciiLowercase d

theorem namedBy_eq_true {d : Text} {order : List Text} :
    namedBy d order = true ↔ ∃ host ∈ order, toAsciiLowercase host = toAsciiLowercase d := by
  simp [namedBy]

namespace AcmeController

variable {acme : AcmeController κ} {shared issued : List Text}

/-- No two orders name one domain. -/
theorem Issues.countP_le_one (h : Issues shared issued acme) (d : Text) :
    acme.orders.countP (namedBy d) ≤ 1 := by
  have hcount : (issued.map fun d' => [d']).countP (namedBy d) = issued.count (toAsciiLowercase d) := by
    rw [List.countP_map, List.count]
    refine List.countP_congr fun d' hd' => ?_
    simp only [Function.comp_apply, namedBy_eq_true, List.mem_singleton, exists_eq_left,
      h.lowercase d' hd', beq_iff_eq]
  rw [h.orders, List.countP_append, hcount]
  by_cases hd : toAsciiLowercase d ∈ issued
  · -- a host of the combined order is one of the configuration and never issued again
    have hshared : (if shared = [] then [] else [shared]).countP (namedBy d) = 0 := by
      rw [List.countP_eq_zero]
      intro order horder hnamed
      split_ifs at horder
      · cases horder
      · rw [List.mem_singleton.mp horder] at hnamed
        obtain ⟨host, hhost, heq⟩ := namedBy_eq_true.mp hnamed
        exact h.new _ hd (heq ▸ h.shared_static host hhost)
    rw [hshared, Nat.zero_add]
    exact List.nodup_iff_count_le_one.mp h.nodup _
  · rw [List.count_eq_zero.mpr hd, Nat.add_zero]
    refine List.countP_le_length.trans ?_
    split_ifs <;> simp

end AcmeController

namespace PublicCerts

/-- The orders started so far. -/
def orders (s : PublicCerts κ) : List (List Text) := s.resolver.orders

/-- A hello for `d` is answered from an ACME order that names `d`. -/
def Issued (s : PublicCerts κ) (d : Text) : Prop :=
  ∃ order ∈ s.orders, s.resolve (some d) = .acme order ∧ namedBy d order

/-- In every run that starts in `s`, a domain of the last call is answered from an order that names
it, unless it is a pattern, has a cert of its own or its order could not be started; and no domain
is ordered twice. -/
def IssuesEach (ε : Type) (s : PublicCerts κ) : Prop :=
  ∀ calls : List (List (Text × Except ε Unit)),
    (∀ domains : List (Text × Except ε Unit), ∀ d, (d, .ok ()) ∈ domains → '*' ∉ d →
      s.hostCerts.covers d = false → ((s.afterCalls calls).setTerminatedDomains domains).Issued d) ∧
    ∀ d, (s.afterCalls calls).orders.countP (namedBy d) ≤ 1

/-- The invariant of a server with a controller. -/
structure Issuing (cfg : ServerConfig) (certs : HostCerts κ) (s : PublicCerts κ) : Prop where
  hostCerts : s.hostCerts = certs
  controller : ∃ acme issued, s.resolver = .multi acme ∧ acme.Issues (cfg.sharedHostnames certs) issued ∧
    acme.staticDomains = (cfg.terminatedHostnames.map toAsciiLowercase).toFinset

variable {cfg : ServerConfig} {certs : HostCerts κ} {s : PublicCerts κ} {sources : CertSources ε κ}
  {tlsCertFile tlsKeyFile : Option PathBuf}

theorem start_ok (h : start sources cfg tlsCertFile tlsKeyFile = .ok s) :
    HostCerts.load sources.loadChain cfg = .ok s.hostCerts ∧
      buildCertResolver sources cfg.acme tlsCertFile tlsKeyFile cfg.terminatedHostnames
        (cfg.sharedHostnames s.hostCerts) = .ok s.resolver := by
  obtain ⟨certs, hload, h⟩ := bind_eq_ok.mp h
  obtain ⟨resolver, hresolver, h⟩ := bind_eq_ok.mp h
  obtain rfl := Except.ok.inj h
  exact ⟨hload, hresolver⟩

/-- With an entry that terminates TLS the server starts with a controller, which has ordered the
combined cert only. -/
theorem controller_start (hacme : cfg.acme.isSome) (hterm : cfg.terminatedHostnames ≠ [])
    (h : start sources cfg tlsCertFile tlsKeyFile = .ok s) :
    ∃ acme, s.resolver = .multi acme ∧ acme.Issues (cfg.sharedHostnames s.hostCerts) [] ∧
      acme.staticDomains = (cfg.terminatedHostnames.map toAsciiLowercase).toFinset := by
  obtain ⟨-, hresolver⟩ := start_ok h
  have hstatic : ∀ host ∈ cfg.sharedHostnames s.hostCerts,
      toAsciiLowercase host ∈ (cfg.terminatedHostnames.map toAsciiLowercase).toFinset := by
    intro host hhost
    exact List.mem_toFinset.mpr (List.mem_map_of_mem (List.mem_of_mem_filter hhost))
  rw [buildCertResolver, if_pos ⟨hacme, hterm⟩] at hresolver
  split_ifs at hresolver with hshared
  · obtain ⟨certified, -, h⟩ := bind_eq_ok.mp hresolver
    refine ⟨_, (Except.ok.inj h).symm, ?_, rfl⟩
    exact AcmeController.issues_nil rfl rfl (if_pos hshared).symm (fun hne => absurd hshared hne) hstatic
  · obtain ⟨resolver, hbuild, h⟩ := bind_eq_ok.mp hresolver
    refine ⟨_, (Except.ok.inj h).symm, ?_, rfl⟩
    refine AcmeController.issues_nil rfl rfl (if_neg hshared).symm (fun _ => ?_) hstatic
    obtain ⟨_, -, hbuild⟩ := map_eq_ok.mp hbuild
    exact hbuild.symm

theorem issuing_start (hacme : cfg.acme.isSome) (hterm : cfg.terminatedHostnames ≠ [])
    (h : start sources cfg tlsCertFile tlsKeyFile = .ok s) : s.Issuing cfg s.hostCerts := by
  obtain ⟨acme, hresolver, hissues, hstatic⟩ := controller_start hacme hterm h
  exact ⟨rfl, acme, [], hresolver, hissues, hstatic⟩

/-- A call keeps the invariant. -/
theorem Issuing.setTerminatedDomains (h : s.Issuing cfg certs) (domains : List (Text × Except ε Unit)) :
    (s.setTerminatedDomains domains).Issuing cfg certs := by
  obtain ⟨acme, issued, hresolver, hissues, hstatic⟩ := h.controller
  obtain ⟨issued', hissues', -, hstatic', -, -⟩ := hissues.ensure domains
  refine ⟨h.hostCerts, acme.ensure domains, issued', ?_, hissues', hstatic'.trans hstatic⟩
  simp [PublicCerts.setTerminatedDomains, hresolver]

theorem Issuing.afterCalls (h : s.Issuing cfg certs) (calls : List (List (Text × Except ε Unit))) :
    (s.afterCalls calls).Issuing cfg certs := by
  induction calls generalizing s with
  | nil => exact h
  | cons domains calls ih => exact ih (h.setTerminatedDomains domains)

theorem Issuing.countP_le_one (h : s.Issuing cfg certs) (d : Text) : s.orders.countP (namedBy d) ≤ 1 := by
  obtain ⟨acme, issued, hresolver, hissues, -⟩ := h.controller
  rw [orders, hresolver]
  exact hissues.countP_le_one d

/-- A host of the configuration that is no pattern and has no cert of its own is in the combined
order. -/
theorem exists_shared {d : Text} (hd : toAsciiLowercase d ∈ cfg.terminatedHostnames.map toAsciiLowercase)
    (hstar : '*' ∉ d) (hcovers : certs.covers d = false) :
    ∃ host ∈ cfg.sharedHostnames certs, toAsciiLowercase host = toAsciiLowercase d := by
  obtain ⟨host, hhost, heq⟩ := List.mem_map.mp hd
  refine ⟨host, List.mem_filter.mpr ⟨hhost, ?_⟩, heq⟩
  rw [decide_eq_true_eq]
  constructor
  · rwa [← mem_toAsciiLowercase (by decide), heq, mem_toAsciiLowercase (by decide)]
  · rw [HostCerts.covers_congr heq, hcovers]

section Answers

variable {acme : AcmeController κ} {shared issued : List Text} {d : Text}

/-- A host without a cert of its own is answered by the controller. -/
theorem resolve_of_select_eq_none (hresolver : s.resolver = .multi acme) (hselect : s.hostCerts.select d = none) :
    s.resolve (some d) = (acme.dynamic.lookup (toAsciiLowercase d)).getD acme.staticResolver := by
  rw [resolve, HostCerts.resolver_eq, hresolver]
  show (((s.hostCerts.select d).map Answer.static).getD _) = _
  rw [hselect]
  rfl

/-- A domain that was ordered for itself is answered from that order. -/
theorem issued_of_mem_issued (hresolver : s.resolver = .multi acme) (hissues : acme.Issues shared issued)
    (hselect : s.hostCerts.select d = none) (hd : toAsciiLowercase d ∈ issued) : s.Issued d := by
  rw [Issued, resolve_of_select_eq_none hresolver hselect, hissues.lookup, orders, hresolver]
  refine ⟨[toAsciiLowercase d], ?_, ?_, ?_⟩
  · show _ ∈ acme.orders
    rw [hissues.orders]
    exact List.mem_append_right _ (List.mem_map_of_mem hd)
  · rw [if_pos hd, Option.getD_some]
  · exact namedBy_eq_true.mpr ⟨_, List.mem_singleton_self _, toAsciiLowercase_idem d⟩

/-- A host of the combined order is answered from it. -/
theorem issued_of_mem_shared (hresolver : s.resolver = .multi acme) (hissues : acme.Issues shared issued)
    (hselect : s.hostCerts.select d = none) {host : Text} (hhost : host ∈ shared)
    (heq : toAsciiLowercase host = toAsciiLowercase d) : s.Issued d := by
  have hnot : toAsciiLowercase d ∉ issued := fun hin =>
    hissues.new _ hin (heq ▸ hissues.shared_static host hhost)
  have hne : shared ≠ [] := List.ne_nil_of_mem hhost
  rw [Issued, resolve_of_select_eq_none hresolver hselect, hissues.lookup, orders, hresolver]
  refine ⟨shared, ?_, ?_, ?_⟩
  · show _ ∈ acme.orders
    rw [hissues.orders, if_neg hne]
    simp
  · rw [if_neg hnot, Option.getD_none, hissues.combined hne]
  · exact namedBy_eq_true.mpr ⟨host, hhost, heq⟩

end Answers

/-- A domain of a call is answered from an order that names it. -/
theorem Issuing.issued (h : s.Issuing cfg certs) {domains : List (Text × Except ε Unit)} {d : Text}
    (hd : (d, .ok ()) ∈ domains) (hstar : '*' ∉ d) (hcovers : certs.covers d = false) :
    (s.setTerminatedDomains domains).Issued d := by
  obtain ⟨acme, issued, hresolver, hissues, hstatic⟩ := h.controller
  obtain ⟨issued', hissues', -, -, hdomains, -⟩ := hissues.ensure domains
  have hresolver' : (s.setTerminatedDomains domains).resolver = .multi (acme.ensure domains) := by
    simp [PublicCerts.setTerminatedDomains, hresolver]
  have hselect : (s.setTerminatedDomains domains).hostCerts.select d = none := by
    show s.hostCerts.select d = none
    rw [h.hostCerts]
    exact HostCerts.covers_eq_false.mp hcovers
  rcases hdomains d hd with hconfig | hnew
  · rw [hstatic, List.mem_toFinset] at hconfig
    obtain ⟨host, hhost, heq⟩ := exists_shared hconfig hstar hcovers
    exact issued_of_mem_shared hresolver' hissues' hselect hhost heq
  · exact issued_of_mem_issued hresolver' hissues' hselect hnew

/-- In an accepted configuration only an entry that terminates TLS sets a cert. -/
theorem terminates_of_certFiles (hcerts : cfg.validateHostCerts = .ok ())
    {row : Text × TlsMode × Option PathBuf × Option PathBuf} (hrow : row ∈ cfg.hostCerts)
    (hfiles : certFiles row.2.2.1 row.2.2.2 ≠ none) : row.2.1.terminates = true := by
  have hcheck := checkEach_ok.mp hcerts row hrow
  obtain ⟨host, mode, cert, key⟩ := row
  by_contra hnot
  rw [TlsMode.not_terminates] at hnot
  cases cert with
  | none => exact hfiles rfl
  | some certFile => cases key <;> simp_all

/-- Without an entry that terminates TLS no host has a cert of its own. -/
theorem not_covers (hvalid : cfg.validateHostCerts = .ok ())
    (hload : HostCerts.load sources.loadChain cfg = .ok certs) (hterm : cfg.terminatedHostnames = [])
    (d : Text) : certs.covers d = false := by
  have hown : cfg.hostCerts.filterMap (ownCert sources.loadChain) = [] := by
    refine List.filterMap_eq_nil_iff.mpr fun row hrow => ?_
    by_cases hfiles : certFiles row.2.2.1 row.2.2.2 = none
    · rw [ownCert, hfiles, Option.bind_none]
    · have hmode := terminates_of_certFiles hvalid hrow hfiles
      have hin : row.1 ∈ cfg.terminatedHostnames :=
        List.mem_map_of_mem (List.mem_filter.mpr ⟨hrow, hmode⟩)
      rw [hterm] at hin
      cases hin
  obtain ⟨-, hmap⟩ := HostCerts.load_ok hload
  rw [hown] at hmap
  have hselect : certs.select d = none := by
    refine List.findSome?_eq_none_iff.mpr fun pattern _ => ?_
    rw [hmap, AssocMap.lookup_collect_eq_none]
    exact List.not_mem_nil
  rw [HostCerts.covers, hselect, Option.isSome_none]

/-- Without an entry that terminates TLS the server has a fixed cert and no controller. -/
theorem resolver_of_not_terminated (hterm : cfg.terminatedHostnames = [])
    (h : start sources cfg tlsCertFile tlsKeyFile = .ok s) :
    ∃ certified, s.resolver = .single (.static certified) := by
  obtain ⟨-, hresolver⟩ := start_ok h
  rw [buildCertResolver, if_neg fun hc => hc.2 hterm, buildFixedResolver] at hresolver
  split at hresolver
  all_goals
    obtain ⟨certified, -, h⟩ := map_eq_ok.mp hresolver
    exact ⟨certified, h.symm⟩

/-- Without an entry that terminates TLS nothing is ever ordered. -/
theorem orders_of_not_terminated (hterm : cfg.terminatedHostnames = [])
    (h : start sources cfg tlsCertFile tlsKeyFile = .ok s) (calls : List (List (Text × Except ε Unit))) :
    (s.afterCalls calls).orders = [] := by
  obtain ⟨certified, hsingle⟩ := resolver_of_not_terminated hterm h
  have hafter : (s.afterCalls calls).resolver = .single (.static certified) := by
    clear h
    induction calls generalizing s with
    | nil => exact hsingle
    | cons domains calls ih => exact ih (by simp [setTerminatedDomains, hsingle])
  rw [orders, hafter]
  rfl

theorem terminatedHostnames_ne_nil :
    cfg.terminatedHostnames ≠ [] ↔ ∃ row ∈ cfg.hostCerts, row.2.1.terminates = true := by
  simp [ServerConfig.terminatedHostnames]

/-- **A server with an `[acme]` section gives every provisioned host a cert of its own order, and no
host two, exactly if an entry of its configuration terminates TLS.** -/
theorem provisioned_issued_iff (hvalid : cfg.validateDynamic = .ok ()) (hacme : cfg.acme.isSome)
    (hstart : start sources cfg tlsCertFile tlsKeyFile = .ok s) :
    s.IssuesEach ε ↔ ∃ row ∈ cfg.hostCerts, row.2.1.terminates = true := by
  rw [← terminatedHostnames_ne_nil]
  constructor
  · intro hissues hterm
    obtain ⟨hload, -⟩ := start_ok hstart
    have hissued := (hissues []).1 [(['a'], .ok ())] ['a'] List.mem_cons_self (by decide)
      (not_covers (ServerConfig.validateHostCerts_of_validateDynamic hvalid) hload hterm _)
    obtain ⟨order, horder, -⟩ := hissued
    have hnone : order ∈ (s.afterCalls [[(['a'], (.ok () : Except ε Unit))]]).orders := horder
    rw [orders_of_not_terminated hterm hstart] at hnone
    cases hnone
  · intro hterm calls
    have hrun := (issuing_start hacme hterm hstart).afterCalls calls
    exact ⟨fun domains d hd hstar hcovers => hrun.issued hd hstar hcovers, hrun.countP_le_one⟩

end PublicCerts

/-- Certs and ACME orders that are always to be had. -/
def readySources : CertSources Unit CertFiles where
  loadChain := readableFiles
  generatePublicCert := fun _ => .ok ([], [])
  acmeStarted := .ok ()

/-- An `[acme]` section and one terminated upstream. -/
def terminatingConfig : ServerConfig where
  upstreams := [{ host := "app".toList, localAddr := some (.v4 127 0 0 1 8080) }]
  acme := some ⟨"mailto:ops".toList⟩

/-- An `[acme]` section and nothing else. -/
def provisionedConfig : ServerConfig where
  acme := some ⟨"mailto:ops".toList⟩

theorem provisioned_issued_terminating :
    ∃ s, PublicCerts.start readySources terminatingConfig none none = .ok s ∧ s.IssuesEach Unit := by
  have hvalid : terminatingConfig.validateDynamic = .ok () := by decide
  have hrow : ∃ row ∈ terminatingConfig.hostCerts, row.2.1.terminates = true :=
    ⟨("app".toList, .terminated, none, none), by decide, rfl⟩
  obtain ⟨s, hstart⟩ : ∃ s, PublicCerts.start readySources terminatingConfig none none = .ok s := ⟨_, rfl⟩
  exact ⟨s, hstart, (PublicCerts.provisioned_issued_iff hvalid rfl hstart).mpr hrow⟩

/-- The first host that is provisioned on a server without entries is answered with the self-signed
cert. -/
theorem provisioned_not_issued : provisionedConfig.validateDynamic = .ok () ∧
    provisionedConfig.acme.isSome = true ∧
    ∃ s, PublicCerts.start readySources provisionedConfig none none = .ok s ∧
      s.hostCerts.covers "app".toList = false ∧
      (s.setTerminatedDomains [("app".toList, (.ok () : Except Unit Unit))]).resolve (some "app".toList) =
        .static ([], []) :=
  ⟨by decide, rfl, _, rfl, by decide, by decide⟩

end Tuyau
