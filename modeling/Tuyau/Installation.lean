import Tuyau.Ownership

/-! # What an installation displaces

`install` goes through the hosts of a grant one by one.  At each it takes the entry over from another
client, joins the connections of its own client or replaces them, and the connections that lose their
place are collected for the caller, who closes them.

What happens to the places is the assignment of leases (`serving_install`); what happens to the other
fields of an entry is said by `lookup_installLoop`, by induction on the hosts.  **`install_complete`**
puts both together: no connection loses its place without being returned, and nobody who is returned
still serves one of the hosts.  The latter needs that no connection serves two clients
(`OneClient`), since a host may be taken over while another host of the same connection is not. -/

namespace Tuyau

open AsciiText

namespace RoutingTable

/-- The connection serves the host. -/
def HeldAt (t : RoutingTable) (h : Text) (c : Connection) : Prop :=
  ∃ e, t.inner.lookup h = some e ∧ c ∈ e.conns

/-- No connection serves two clients. -/
def OneClient (t : RoutingTable) : Prop :=
  ∀ h h' e e' c, t.inner.lookup h = some e → t.inner.lookup h' = some e' →
    c ∈ e.conns → c ∈ e'.conns → e.clientName = e'.clientName

/-- The connection is new: none that the table holds has its stable id. -/
def Fresh (t : RoutingTable) (c : Connection) : Prop := ∀ d, t.Holds d → d.stableId ≠ c.stableId

/-- What `install` did to the table `t`, where it left `t'` and returned some connections. -/
structure Installed (t : RoutingTable) (hosts : List (Text × TlsMode)) (clientName : Text)
    (balance : Balance) (c : Connection) (returned : List Connection) (t' : RoutingTable) : Prop where
  serves : ∀ h ∈ hosts.map Prod.fst, ∃ e, t'.inner.lookup h = some e ∧ c ∈ e.conns ∧
    e.clientName = clientName ∧ hosts.reverse.lookup h = some e.tlsMode ∧
    (balance = .lastWriteWins → e.conns = [c])
  lost : ∀ h ∈ hosts.map Prod.fst, ∀ d, t.HeldAt h d → ¬ t'.HeldAt h d → d ∈ returned
  displaced : ∀ d ∈ returned, (∃ h ∈ hosts.map Prod.fst, t.HeldAt h d) ∧ d ≠ c ∧
    ∀ h ∈ hosts.map Prod.fst, ¬ t'.HeldAt h d
  roundRobin : balance = .roundRobin →
    (∀ h ∈ hosts.map Prod.fst, ∀ e, t.inner.lookup h = some e → e.clientName = clientName) →
    returned = []
  unlisted : ∀ h ∉ hosts.map Prod.fst, t'.inner.lookup h = t.inner.lookup h

/-! ### The entries of one host -/

section

variable {n : Text} {b : Balance} {c : Connection}

/-- The loop leaves the entries of other hosts alone. -/
theorem lookup_installLoop_of_notMem {h : Text} :
    ∀ {hosts : List (Text × TlsMode)} {inner : AssocMap Text HostRoutes} {displaced : List Connection},
      h ∉ hosts.map Prod.fst → (installLoop n b c hosts inner displaced).2.lookup h = inner.lookup h
  | [], _, _, _ => rfl
  | (host, mode) :: hosts, inner, displaced, hnot => by
      rw [List.map_cons, List.mem_cons, not_or] at hnot
      rw [installLoop, lookup_installLoop_of_notMem hnot.2, AssocMap.lookup_insert_eq_ite, if_neg hnot.1]

/-- The loop gives the entry of each of its hosts to the client, in the mode that was given last. -/
theorem lookup_installLoop {h : Text} :
    ∀ (hosts : List (Text × TlsMode)) (inner : AssocMap Text HostRoutes) (displaced : List Connection),
      h ∈ hosts.map Prod.fst → ∃ e, (installLoop n b c hosts inner displaced).2.lookup h = some e ∧
        e.clientName = n ∧ hosts.reverse.lookup h = some e.tlsMode ∧ (b = .lastWriteWins → e.conns = [c])
  | [], _, _, hin => absurd hin List.not_mem_nil
  | (host, mode) :: hosts, inner, displaced, hin => by
      rw [installLoop, List.reverse_cons, List.lookup_append]
      by_cases hrest : h ∈ hosts.map Prod.fst
      · -- a later element names the host as well and decides
        obtain ⟨e, he, hn, hmode, hconns⟩ := lookup_installLoop hosts _ _ hrest
        exact ⟨e, he, hn, by rw [hmode, Option.some_or], hconns⟩
      · obtain rfl : h = host := (List.mem_cons.mp hin).resolve_right hrest
        have hnone : hosts.reverse.lookup h = none := by
          rw [List.lookup_eq_none_iff]
          intro p hp
          rw [bne_iff_ne]
          rintro rfl
          exact hrest (List.mem_map_of_mem (List.mem_reverse.mp hp))
        refine ⟨_, (lookup_installLoop_of_notMem hrest).trans (AList.lookup_insert _),
          HostRoutes.give_clientName, ?_, ?_⟩
        · rw [hnone, Option.none_or, HostRoutes.give_tlsMode, List.lookup_cons_self]
        · rintro rfl
          exact HostRoutes.give_lastWriteWins

/-- What is given twice to one connection is given as by the second time. -/
theorem give_give (e : HostRoutes) (mode mode' : TlsMode) :
    ((e.give n mode b c).1.give n mode' b c).1 = (e.give n mode' b c).1 := by
  cases b with
  | lastWriteWins => rfl
  | roundRobin =>
      by_cases hn : e.clientName = n
      · by_cases hid : ∃ d ∈ e.conns, d.stableId = c.stableId
        · simp [HostRoutes.give, hn, hid]
        · simp [HostRoutes.give, hn, hid]
      · simp [HostRoutes.give, hn]

/-- An entry that is made for a grant does not remember the mode it was made with. -/
theorem give_vacant (mode mode' : TlsMode) :
    ((HostRoutes.vacant n mode).give n mode' b c).1 = ⟨n, mode', [c], 0⟩ := by
  cases b with
  | lastWriteWins => rfl
  | roundRobin => simp [HostRoutes.give, HostRoutes.vacant]

/-- The loop gives the entry of a host to the connection once, however often it names the host. -/
theorem lookup_installLoop_eq {h : Text} {mode : TlsMode} :
    ∀ (hosts : List (Text × TlsMode)) (inner : AssocMap Text HostRoutes) (displaced : List Connection),
      hosts.reverse.lookup h = some mode → (installLoop n b c hosts inner displaced).2.lookup h =
        some (((inner.lookup h).getD (.vacant n mode)).give n mode b c).1
  | [], _, _, hmode => by cases hmode
  | (host, first) :: hosts, inner, displaced, hmode => by
      rw [installLoop]
      rw [List.reverse_cons, List.lookup_append] at hmode
      cases hrest : hosts.reverse.lookup h with
      | some later =>
          rw [hrest, Option.some_or] at hmode
          rw [lookup_installLoop_eq hosts _ _ (hrest.trans hmode), AssocMap.lookup_insert_eq_ite]
          split_ifs with hh
          · subst hh
            rw [Option.getD_some, give_give]
            cases hin : inner.lookup h with
            | none => rw [Option.getD_none, Option.getD_none, give_vacant, give_vacant]
            | some e => rfl
          · rfl
      | none =>
          rw [hrest, Option.none_or] at hmode
          obtain ⟨rfl, rfl⟩ : h = host ∧ first = mode := by
            rw [List.lookup_cons] at hmode
            split at hmode
            · next heq => exact ⟨beq_iff_eq.mp heq, Option.some.inj hmode⟩
            · cases hmode
          have hnot : h ∉ hosts.map Prod.fst := by
            intro hin
            obtain ⟨p, hp, rfl⟩ := List.mem_map.mp hin
            have hne := List.lookup_eq_none_iff.mp hrest p (List.mem_reverse.mpr hp)
            exact absurd rfl (bne_iff_ne.mp hne)
          rw [lookup_installLoop_of_notMem hnot, AList.lookup_insert]

end

/-! ### The whole installation -/

variable {t : RoutingTable} {hosts : List (Text × TlsMode)} {n : Text} {b : Balance} {c d : Connection}
  {h : Text}

theorem heldAt_iff_serving : t.HeldAt h c ↔ ∃ p, (h, p, c) ∈ serving t.inner := by
  constructor
  · rintro ⟨e, he, hc⟩
    exact ⟨e.clientName, e, he, rfl, hc⟩
  · rintro ⟨p, e, he, -, hc⟩
    exact ⟨e, he, hc⟩

theorem OneClient.serving (ht : t.OneClient) {h' p p' : Text} (hd : (h, p, d) ∈ serving t.inner)
    (hd' : (h', p', d) ∈ serving t.inner) : p = p' := by
  obtain ⟨e, he, rfl, hd⟩ := hd
  obtain ⟨e', he', rfl, hd'⟩ := hd'
  exact ht h h' e e' d he he' hd hd'

theorem Fresh.serving (hc : t.Fresh c) (x : Text × Text × Connection) (hx : x ∈ serving t.inner) :
    x.2.2.stableId ≠ c.stableId := by
  obtain ⟨h, p, d⟩ := x
  exact hc d (holds_iff_serving.mpr ⟨h, p, hx⟩)

/-- An installation is its loop, also for an empty list of hosts. -/
theorem inner_install : (t.install hosts n b c).2.inner = (installLoop n b c hosts t.inner []).2 := by
  rw [install]
  split_ifs with hnil
  · rw [hnil]
    rfl
  · rfl

/-- **`install` loses no connection.**  In a table where no connection serves two clients, a new
connection gets every host of the list, and exactly those who lost one are returned. -/
theorem install_complete (ht : t.OneClient) (hc : t.Fresh c) (hosts : List (Text × TlsMode)) (n : Text)
    (b : Balance) :
    Installed t hosts n b c (t.install hosts n b c).1 (t.install hosts n b c).2 := by
  let g : ClientGrant := ⟨n, b, hosts⟩
  obtain ⟨hserving, hreturned⟩ := serving_install (t := t) (g := g) hc.serving
  have hheld : ∀ {h d}, (t.install hosts n b c).2.HeldAt h d ↔
      ∃ p, (h, p, d) ∈ Leases.assign (serving t.inner) {h | h ∈ g.hosts} n (b = .roundRobin) c := by
    intro h d
    rw [heldAt_iff_serving, ← hserving]
  refine ⟨?_, ?_, ?_, ?_, ?_⟩
  · intro h hin
    obtain ⟨e, he, hn, hmode, hconns⟩ := lookup_installLoop (n := n) (b := b) (c := c) hosts t.inner [] hin
    rw [← inner_install] at he
    obtain ⟨e', he', hcmem⟩ := hheld.mpr ⟨n, Leases.mem_assign_self hin⟩
    obtain rfl : e' = e := Option.some.inj (he'.symm.trans he)
    exact ⟨e', he', hcmem, hn, hmode, hconns⟩
  · intro h hin d hbefore hafter
    obtain ⟨p, hd⟩ := heldAt_iff_serving.mp hbefore
    refine (hreturned d).mpr ((Leases.mem_assign_or_displaced (m := c) hd).resolve_left fun hstays => ?_)
    exact hafter (hheld.mpr ⟨p, hstays⟩)
  · intro d hd
    obtain ⟨k, hk, p, hT, hp⟩ := (hreturned d).mp hd
    have hne : d ≠ c := by
      rintro rfl
      exact hc.serving _ hT rfl
    refine ⟨⟨k, hk, heldAt_iff_serving.mpr ⟨p, hT⟩⟩, hne, fun h hin hafter => ?_⟩
    obtain ⟨p', hA⟩ := hheld.mp hafter
    rcases Leases.mem_assign.mp hA with ⟨-, rfl, hdc | ⟨hshared, hT'⟩⟩ | ⟨hnot, -⟩
    · exact hne hdc
    · -- it also serves a host of `n`, so the host it lost was one of `n`, and it would have stayed
      exact hp (ht.serving hT hT') hshared
    · exact hnot hin
  · intro hb hown
    refine List.eq_nil_iff_forall_not_mem.mpr fun d hd => ?_
    obtain ⟨k, hk, p, ⟨e, he, hep, -⟩, hp⟩ := (hreturned d).mp hd
    exact hp (hep.symm.trans (hown k hk e he)) hb
  · intro h hnot
    rw [inner_install, lookup_installLoop_of_notMem hnot]

/-- The table of any run is one where no connection serves two clients. -/
theorem oneClient_run {hostnames : List HostnameEntry} {upstreams : List UpstreamEntry} {ops : List Op}
    (hrun : Runs.run step ops (fromConfig hostnames upstreams) = some t) : t.OneClient :=
  fun _ _ _ _ _ he he' hc hc' => clientName_eq_of_owned (owned_run hrun) he he' hc hc'

/-- A client takes over one of the two hosts of another client, naming it twice. -/
theorem install_complete_takeover :
    let ops : List Op :=
      [.install ⟨['a'], .roundRobin, [(['x'], .terminated), (['y'], .terminated)]⟩ (.nth 0)]
    let hosts : List (Text × TlsMode) :=
      [(['x'], .passthrough), (['z'], .terminated), (['x'], .terminated)]
    ∃ t t', Runs.run step ops (fromConfig [] []) = some t ∧
      Installed t hosts ['b'] .roundRobin (.nth 1) [.nth 0] t' := by
  intro ops hosts
  obtain ⟨t, hrun, hids, hreturned⟩ : ∃ t, Runs.run step ops (fromConfig [] []) = some t ∧
      (t.inner.entries.all fun e => e.2.conns.all fun d => d.stableId ≠ 1) = true ∧
      (t.install hosts ['b'] .roundRobin (.nth 1)).1 = [.nth 0] := ⟨_, rfl, by decide, rfl⟩
  have hfresh : t.Fresh (.nth 1) := by
    rintro d ⟨e, he, hd⟩
    exact of_decide_eq_true (List.all_eq_true.mp (List.all_eq_true.mp hids e he) d hd)
  have hinstalled := install_complete (oneClient_run hrun) hfresh hosts ['b'] .roundRobin
  rw [hreturned] at hinstalled
  exact ⟨t, _, hrun, hinstalled⟩

end RoutingTable

end Tuyau
