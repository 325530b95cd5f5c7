import Tuyau.Acme

/-! # ACME orders and the certs that entries set

The combined order of the start leaves out every host that has a cert of its own: `sharedHostnames`
asks `HostCerts.covers`, which tries the patterns of the host.  `AcmeController.ensure` does not ask;
it only skips the hosts of the configuration, compared as whole names.  A host that is provisioned
under a `*.parent` or `*` entry with a cert, or under the name of such an entry with a dot at its
end, is ordered although its hellos are answered with the cert of that entry, so the challenge of
the order never reaches the ACME resolver.

`select_eq_none_iff` says which entries set the cert of a host and `exists_issued` which domains have
an order of their own after a run of calls.  **`orders_served_iff`** puts the two together: after a run every
host that an order names is answered from that order exactly if each domain of the run is a
terminated host of the configuration or is matched by no entry that sets a cert. -/

namespace Tuyau

open AsciiText

variable {ε κ : Type}

namespace ServerConfig

/-- An entry that is `pattern` up to letter case sets a cert. -/
def SetsCert (cfg : ServerConfig) (pattern : Text) : Prop :=
  ∃ row ∈ cfg.hostCerts, toAsciiLowercase row.1 = pattern ∧ certFiles row.2.2.1 row.2.2.2 ≠ none

/-- A domain is a terminated host of the configuration, or no entry that matches it sets a cert. -/
def Orderable (cfg : ServerConfig) (d : Text) : Prop :=
  toAsciiLowercase d ∈ cfg.terminatedHostnames.map toAsciiLowercase ∨
    ∀ pattern ∈ hostPatterns (HostCerts.selectName d), ¬ cfg.SetsCert pattern

end ServerConfig

/-! ### The hosts that have a cert of their own -/

namespace HostCerts

variable {loadChain : CertFiles → Except ε κ} {cfg : ServerConfig} {certs : HostCerts κ}

theorem lookup_eq_none_iff (hload : load loadChain cfg = .ok certs) {pattern : Text} :
    certs.map.lookup pattern = none ↔ ¬ cfg.SetsCert pattern := by
  obtain ⟨hreadable, hmap⟩ := load_ok hload
  rw [hmap, AssocMap.lookup_collect_eq_none, not_iff_not, List.mem_map]
  constructor
  · rintro ⟨p, hp, rfl⟩
    obtain ⟨row, hrow, hown⟩ := List.mem_filterMap.mp hp
    obtain ⟨files, hfiles, hchain⟩ := Option.bind_eq_some_iff.mp hown
    obtain ⟨certified, -, rfl⟩ := Option.map_eq_some_iff.mp hchain
    exact ⟨row, hrow, rfl, by simp [hfiles]⟩
  · rintro ⟨row, hrow, rfl, hfiles⟩
    obtain ⟨files, hfiles⟩ := Option.ne_none_iff_exists'.mp hfiles
    obtain ⟨certified, hchain⟩ := hreadable row hrow files hfiles
    refine ⟨(toAsciiLowercase row.1, certified), List.mem_filterMap.mpr ⟨row, hrow, ?_⟩, rfl⟩
    rw [ownCert, hfiles, Option.bind_some, hchain]
    rfl

/-- A host has no cert exactly if no entry at one of its patterns sets one. -/
theorem select_eq_none_iff (hload : load loadChain cfg = .ok certs) {host : Text} :
    certs.select host = none ↔ ∀ pattern ∈ hostPatterns (selectName host), ¬ cfg.SetsCert pattern := by
  rw [select, List.findSome?_eq_none_iff]
  exact forall₂_congr fun pattern _ => lookup_eq_none_iff hload

end HostCerts

/-! ### The domains that have an order of their own -/

namespace PublicCerts

variable {cfg : ServerConfig} {certs : HostCerts κ} {s : PublicCerts κ} {sources : CertSources ε κ}
  {tlsCertFile tlsKeyFile : Option PathBuf}

@[simp]
theorem hostCerts_afterCalls (s : PublicCerts κ) (calls : List (List (Text × Except ε Unit))) :
    (s.afterCalls calls).hostCerts = s.hostCerts := by
  induction calls generalizing s with
  | nil => rfl
  | cons domains calls ih => exact ih _

/-- The controller after a run of calls: a domain has an order of its own exactly if it is no host of
the configuration and one of the calls could start its order. -/
theorem exists_issued (hacme : cfg.acme.isSome) (hterm : cfg.terminatedHostnames ≠ [])
    (h : start sources cfg tlsCertFile tlsKeyFile = .ok s) (calls : List (List (Text × Except ε Unit))) :
    ∃ acme issued, (s.afterCalls calls).resolver = .multi acme ∧
      acme.Issues (cfg.sharedHostnames s.hostCerts) issued ∧
      acme.staticDomains = (cfg.terminatedHostnames.map toAsciiLowercase).toFinset ∧
      ∀ x, x ∈ issued ↔ x ∉ cfg.terminatedHostnames.map toAsciiLowercase ∧
        ∃ domains ∈ calls, ∃ d, (d, .ok ()) ∈ domains ∧ toAsciiLowercase d = x := by
  induction calls using List.reverseRecOn with
  | nil =>
      obtain ⟨acme, hresolver, hissues, hstatic⟩ := controller_start hacme hterm h
      exact ⟨acme, [], hresolver, hissues, hstatic, by simp⟩
  | append_singleton calls domains ih =>
      obtain ⟨acme, issued, hresolver, hissues, hstatic, hmem⟩ := ih
      obtain ⟨issued', hissues', hsub, hstatic', hdomains, hfrom⟩ := hissues.ensure domains
      have hstatic'' := hstatic'.trans hstatic
      refine ⟨acme.ensure domains, issued', ?_, hissues', hstatic'', fun x => ⟨fun hx => ⟨?_, ?_⟩, ?_⟩⟩
      · rw [afterCalls, List.foldl_append]
        show (setTerminatedDomains (s.afterCalls calls) domains).resolver = _
        simp [setTerminatedDomains, hresolver]
      · have hnew := hissues'.new x hx
        rwa [hstatic'', List.mem_toFinset] at hnew
      · rcases hfrom x hx with hx | ⟨d, hd, rfl⟩
        · obtain ⟨-, domains', hdomains', hd⟩ := (hmem x).mp hx
          exact ⟨domains', List.mem_append_left _ hdomains', hd⟩
        · exact ⟨domains, List.mem_append_right _ List.mem_cons_self, d, hd, rfl⟩
      · rintro ⟨hnot, domains', hin, d, hd, rfl⟩
        rcases List.mem_append.mp hin with hin | hin
        · exact hsub ((hmem _).mpr ⟨hnot, domains', hin, d, hd, rfl⟩)
        · obtain rfl := List.mem_singleton.mp hin
          refine (hdomains d hd).resolve_left fun hconfig => hnot ?_
          rwa [hstatic, List.mem_toFinset] at hconfig

/-- No order names a host with a cert of its own: each host that an order names is answered from an
ACME order that names it. -/
def OrdersServed (s : PublicCerts κ) : Prop :=
  ∀ order ∈ s.orders, ∀ d, namedBy d order → s.hostCerts.select d = none ∧ s.Issued d

/-- A server without a controller orders nothing, and no entry of its configuration sets a cert. -/
theorem not_setsCert (hvalid : cfg.validateHostCerts = .ok ()) (hterm : cfg.terminatedHostnames = [])
    (pattern : Text) : ¬ cfg.SetsCert pattern := by
  rintro ⟨row, hrow, -, hfiles⟩
  exact terminatedHostnames_ne_nil.mpr ⟨row, hrow, terminates_of_certFiles hvalid hrow hfiles⟩ hterm

/-- The combined order leaves out every host that has a cert. -/
theorem select_of_mem_sharedHostnames {host d : Text} (hhost : host ∈ cfg.sharedHostnames certs)
    (heq : toAsciiLowercase host = toAsciiLowercase d) : certs.select d = none := by
  have hcovers : certs.covers host = false := (of_decide_eq_true (List.mem_filter.mp hhost).2).2
  rw [HostCerts.covers_congr heq] at hcovers
  exact HostCerts.covers_eq_false.mp hcovers

/-- **After a run of calls every host that an order names is answered from that order exactly if each
domain of the run whose order could start is a terminated host of the configuration or is matched by
no entry that sets a cert.** -/
theorem orders_served_iff (hvalid : cfg.validate = .ok () ∨ cfg.validateDynamic = .ok ())
    (hacme : cfg.acme.isSome) (hstart : start sources cfg tlsCertFile tlsKeyFile = .ok s)
    (calls : List (List (Text × Except ε Unit))) :
    (s.afterCalls calls).OrdersServed ↔
      ∀ domains ∈ calls, ∀ d, (d, .ok ()) ∈ domains → cfg.Orderable d := by
  have hcerts : cfg.validateHostCerts = .ok () := hvalid.elim
    ServerConfig.validateHostCerts_of_validate ServerConfig.validateHostCerts_of_validateDynamic
  obtain ⟨hload, -⟩ := start_ok hstart
  by_cases hterm : cfg.terminatedHostnames = []
  · -- no order is ever started, and no entry sets a cert
    constructor
    · exact fun _ domains _ d _ => .inr fun pattern _ => not_setsCert hcerts hterm pattern
    · intro _ order horder
      rw [orders_of_not_terminated hterm hstart] at horder
      cases horder
  · obtain ⟨acme, issued, hresolver, hissues, -, hmem⟩ := exists_issued hacme hterm hstart calls
    have horders : (s.afterCalls calls).orders = acme.orders := by rw [orders, hresolver]; rfl
    constructor
    · intro hserved domains hdomains d hd
      refine or_iff_not_imp_left.mpr fun hnot => (HostCerts.select_eq_none_iff hload).mp ?_
      have hissued := (hmem _).mpr ⟨hnot, domains, hdomains, d, hd, rfl⟩
      have horder : [toAsciiLowercase d] ∈ (s.afterCalls calls).orders := by
        rw [horders, hissues.orders]
        exact List.mem_append_right _ (List.mem_map_of_mem hissued)
      have hnamed := namedBy_eq_true.mpr ⟨_, List.mem_singleton_self _, toAsciiLowercase_idem d⟩
      have hselect := (hserved _ horder d hnamed).1
      rwa [hostCerts_afterCalls] at hselect
    · intro hcalls order horder d hnamed
      obtain ⟨host, hhost, heq⟩ := namedBy_eq_true.mp hnamed
      rw [horders, hissues.orders] at horder
      rcases List.mem_append.mp horder with hcombined | hown
      · split_ifs at hcombined with hshared
        · cases hcombined
        obtain rfl := List.mem_singleton.mp hcombined
        have hselect : (s.afterCalls calls).hostCerts.select d = none := by
          rw [hostCerts_afterCalls]
          exact select_of_mem_sharedHostnames hhost heq
        exact ⟨hselect, issued_of_mem_shared hresolver hissues hselect hhost heq⟩
      · obtain ⟨x, hx, rfl⟩ := List.mem_map.mp hown
        obtain rfl := List.mem_singleton.mp hhost
        obtain ⟨hnot, domains, hdomains, d', hd', hlower⟩ := (hmem _).mp hx
        rw [hissues.lowercase _ hx] at heq
        have hclear := (hcalls domains hdomains d' hd').resolve_left (hlower ▸ hnot)
        rw [HostCerts.selectName_congr (hlower.trans heq)] at hclear
        have hselect : (s.afterCalls calls).hostCerts.select d = none := by
          rw [hostCerts_afterCalls]
          exact (HostCerts.select_eq_none_iff hload).mpr hclear
        exact ⟨hselect, issued_of_mem_issued hresolver hissues hselect (heq ▸ hx)⟩

end PublicCerts

/-- An `[acme]` section and a wildcard upstream with a cert of its own. -/
def wildcardCertConfig : ServerConfig where
  upstreams := [{ host := "*.example".toList, localAddr := some (.v4 127 0 0 1 8080),
                  tlsCertFile := some [1], tlsKeyFile := some [2] }]
  acme := some ⟨"mailto:ops".toList⟩

/-- A host that is provisioned outside the wildcard entry is ordered and answered from its order. -/
theorem orders_served_outside :
    ∃ s, PublicCerts.start readySources wildcardCertConfig none none = .ok s ∧
      ["app.test".toList] ∈ (s.afterCalls [[("app.test".toList, (.ok () : Except Unit Unit))]]).orders ∧
      (s.afterCalls [[("app.test".toList, (.ok () : Except Unit Unit))]]).OrdersServed := by
  have hvalid : wildcardCertConfig.validateDynamic = .ok () := by decide
  obtain ⟨s, hstart, horder⟩ : ∃ s, PublicCerts.start readySources wildcardCertConfig none none = .ok s ∧
      ["app.test".toList] ∈ (s.afterCalls [[("app.test".toList, (.ok () : Except Unit Unit))]]).orders :=
    ⟨_, rfl, by decide⟩
  refine ⟨s, hstart, horder, (PublicCerts.orders_served_iff (.inr hvalid) rfl hstart _).mpr ?_⟩
  intro domains hdomains d hd
  obtain rfl := List.mem_singleton.mp hdomains
  obtain rfl : d = "app.test".toList := congrArg Prod.fst (List.mem_singleton.mp hd)
  refine .inr ?_
  rintro pattern hpattern ⟨row, hrow, rfl, -⟩
  obtain rfl := List.mem_singleton.mp hrow
  exact absurd hpattern (by decide)

/-- A host that is provisioned under a wildcard entry with a cert is ordered, and its hellos are
answered with the cert of the entry. -/
theorem ordered_not_served : wildcardCertConfig.validateDynamic = .ok () ∧
    wildcardCertConfig.acme.isSome = true ∧
    ∃ s, PublicCerts.start readySources wildcardCertConfig none none = .ok s ∧
      ["app.example".toList] ∈
        (s.afterCalls [[("app.example".toList, (.ok () : Except Unit Unit))]]).orders ∧
      (s.afterCalls [[("app.example".toList, (.ok () : Except Unit Unit))]]).resolve
        (some "app.example".toList) = .static ([1], [2]) ∧
      ¬ (s.afterCalls [[("app.example".toList, (.ok () : Except Unit Unit))]]).OrdersServed := by
  refine ⟨by decide, rfl, _, rfl, by decide, by decide, fun hserved => ?_⟩
  have hnone := (hserved ["app.example".toList] (by decide) "app.example".toList (by decide)).1
  exact absurd hnone (by decide)

end Tuyau
