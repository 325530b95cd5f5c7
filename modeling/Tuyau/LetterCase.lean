import Tuyau.DynamicMode
import Tuyau.Installation
import Tuyau.Lookups

/-! # Hostnames up to letter case

The mode of a host is decided on its lower-case name, but its tunnels are kept under the granted spelling and
asked for under the spelling of the public client, and a wildcard upstream is kept away by an entry under the
lower-case name only.

Which spellings reach the tunnels of a granted host is a question about the grants that there are.
`lookup_up_to_case_iff` answers it for the tables that are reached with grants of a given kind: an SNI reaches the
tunnels of `g` in all of them exactly if the same grants name both spellings (`Together`), and either a hostname
of the configuration has this name, or no wildcard upstream matches it, or the lower-case spelling stays granted
while `g` is (`Accompanied`). -/

namespace Tuyau

open AsciiText

namespace RoutingTable

/-! ### The question -/

/-- A lookup of `h` takes a tunnel of the entry of `g`, and both names have one mode. -/
def MatchedAs (t : RoutingTable) (isOpen : Connection → Bool) (g h : Text) : Prop :=
  (∃ r e, (t.lookup isOpen h).1 = some (.tunnel r) ∧ t.inner.lookup g = some e ∧ r.conn ∈ e.conns) ∧
    t.isTerminated h = t.isTerminated g ∧ t.isOffload h = t.isOffload g

/-- Only grants of a given kind are installed. -/
def Installs (granted : ClientGrant → Prop) (ops : List Op) : Prop := ∀ γ c, .install γ c ∈ ops → granted γ

/-- With grants of a given kind, whenever `g` has an open tunnel a lookup of `h` takes one of its tunnels, in
every table that is reached, as long as the cursor of `h` does not wrap. -/
def MatchedThroughout (cfg : ServerConfig) (granted : ClientGrant → Prop) (g h : Text) : Prop :=
  ∀ ops, Installs granted ops →
    (∀ e, (after cfg ops).inner.lookup h = some e → e.cursor.toNat + e.conns.length ≤ 2 ^ 64) →
    ∀ isOpen e, (after cfg ops).inner.lookup g = some e → (∃ conn ∈ e.conns, isOpen conn = true) →
      MatchedAs (after cfg ops) isOpen g h

/-- The same grants name two spellings. -/
def Together (granted : ClientGrant → Prop) (g h : Text) : Prop :=
  ∀ γ, granted γ → (g ∈ γ.hosts ↔ h ∈ γ.hosts)

/-- A second spelling stays granted while `g` is: every grant of `g` names it, and a grant that names it without
`g` only joins the tunnels of the client that has both. -/
structure Accompanied (granted : ClientGrant → Prop) (g name : Text) : Prop where
  named : ∀ γ, granted γ → g ∈ γ.hosts → name ∈ γ.hosts
  joins : ∀ γ, granted γ → name ∈ γ.hosts → g ∉ γ.hosts →
    γ.balance = .roundRobin ∧ ∀ γ', granted γ' → g ∈ γ'.hosts → γ'.clientName = γ.clientName

/-! ### What a call does to the entry of one host -/

variable {cfg : ServerConfig} {granted : ClientGrant → Prop} {ops : List Op} {g h name : Text} {t : RoutingTable}
  {e : HostRoutes}

theorem lookup_call_of_notMem {γ : ClientGrant} {c : Connection} (hnot : h ∉ γ.hosts) :
    (t.call (.install γ c)).inner.lookup h = t.inner.lookup h := by
  change (t.install γ.hostnames γ.clientName γ.balance c).2.inner.lookup h = _
  rw [inner_install, lookup_installLoop_of_notMem hnot]

theorem lookup_call_of_mem {γ : ClientGrant} {c : Connection} (hin : h ∈ γ.hosts) :
    ∃ mode, (t.call (.install γ c)).inner.lookup h =
      some (((t.inner.lookup h).getD (.vacant γ.clientName mode)).give γ.clientName mode γ.balance c).1 := by
  obtain ⟨e, -, -, hmode, -⟩ := lookup_installLoop (n := γ.clientName) (b := γ.balance) (c := c) γ.hostnames
    t.inner [] hin
  refine ⟨e.tlsMode, ?_⟩
  change (t.install γ.hostnames γ.clientName γ.balance c).2.inner.lookup h = _
  rw [inner_install, lookup_installLoop_eq _ _ _ hmode]

theorem lookup_call_removeConn (stableId : ℕ) :
    (t.call (.removeConn stableId)).inner.lookup h = (t.inner.lookup h).bind fun e =>
      let conns := e.conns.filter fun c => c.stableId ≠ stableId
      if conns = [] then none else some { e with conns } := by
  change (t.removeConn stableId).inner.lookup h = _
  rw [removeConn, AssocMap.lookup_retain]

theorem lookup_call_kick (clientName : Text) :
    (t.call (.kick clientName)).inner.lookup h =
      (t.inner.lookup h).bind fun e => if e.clientName = clientName then none else some e := by
  change (t.kick clientName).2.inner.lookup h = _
  rw [kick, AssocMap.lookup_retain]

/-! ### Two spellings with the same tunnels -/

/-- What an entry says of its tunnels, but for the mode and the cursor. -/
def tunnelsOf (e : HostRoutes) : Text × List Connection := (e.clientName, e.conns)

/-- Both hosts have the same tunnels. -/
def SameTunnels (t : RoutingTable) (g h : Text) : Prop :=
  (t.inner.lookup g).map tunnelsOf = (t.inner.lookup h).map tunnelsOf

/-- Giving an entry to a connection depends on its tunnels only. -/
theorem tunnels_give {e e' : HostRoutes} {n : Text} {mode mode' : TlsMode} {b : Balance} {c : Connection}
    (h : tunnelsOf e = tunnelsOf e') :
    tunnelsOf (e.give n mode b c).1 = tunnelsOf (e'.give n mode' b c).1 := by
  obtain ⟨hname, hconns⟩ := Prod.mk.inj h
  unfold tunnelsOf
  rw [HostRoutes.give_clientName, HostRoutes.give_clientName]
  cases b with
  | lastWriteWins => rfl
  | roundRobin => rw [HostRoutes.give_roundRobin, HostRoutes.give_roundRobin, hname, hconns]

theorem sameTunnels_call {op : Op} (hop : ∀ γ c, op = .install γ c → (g ∈ γ.hosts ↔ h ∈ γ.hosts))
    (ht : SameTunnels t g h) : SameTunnels (t.call op) g h := by
  unfold SameTunnels at ht ⊢
  cases op with
  | install γ c =>
      by_cases hin : g ∈ γ.hosts
      · obtain ⟨mode, hmode⟩ := lookup_call_of_mem (t := t) (c := c) hin
        obtain ⟨mode', hmode'⟩ := lookup_call_of_mem (t := t) (c := c) ((hop γ c rfl).mp hin)
        rw [hmode, hmode']
        refine congrArg some (tunnels_give ?_)
        cases hg : t.inner.lookup g with
        | none =>
            rw [hg] at ht
            rw [Option.map_eq_none_iff.mp ht.symm]
            rfl
        | some e =>
            rw [hg] at ht
            obtain ⟨e', he', htunnels⟩ := Option.map_eq_some_iff.mp ht.symm
            rw [he']
            exact htunnels.symm
      · rw [lookup_call_of_notMem hin, lookup_call_of_notMem (mt (hop γ c rfl).mpr hin)]
        exact ht
  | removeConn stableId =>
      rw [lookup_call_removeConn, lookup_call_removeConn]
      cases hg : t.inner.lookup g with
      | none =>
          rw [hg] at ht
          rw [Option.map_eq_none_iff.mp ht.symm]
      | some e =>
          rw [hg] at ht
          obtain ⟨e', he', htunnels⟩ := Option.map_eq_some_iff.mp ht.symm
          obtain ⟨hname, hconns⟩ := Prod.mk.inj htunnels
          rw [he', Option.bind_some, Option.bind_some, hconns]
          dsimp only
          split_ifs
          · rfl
          · exact congrArg some (Prod.ext hname.symm rfl)
  | kick clientName =>
      rw [lookup_call_kick, lookup_call_kick]
      cases hg : t.inner.lookup g with
      | none =>
          rw [hg] at ht
          rw [Option.map_eq_none_iff.mp ht.symm]
      | some e =>
          rw [hg] at ht
          obtain ⟨e', he', htunnels⟩ := Option.map_eq_some_iff.mp ht.symm
          obtain ⟨hname, hconns⟩ := Prod.mk.inj htunnels
          rw [he', Option.bind_some, Option.bind_some, hname]
          split_ifs
          · rfl
          · exact congrArg some htunnels.symm
  | setTerminated full => exact ht
  | lookup isOpen host =>
      obtain ⟨cursor, hcursor⟩ := lookup_lookup t isOpen host g
      obtain ⟨cursor', hcursor'⟩ := lookup_lookup t isOpen host h
      change ((t.lookup isOpen host).2.inner.lookup g).map _ = ((t.lookup isOpen host).2.inner.lookup h).map _
      rw [hcursor, hcursor', Option.map_map, Option.map_map]
      exact ht

theorem sameTunnels_after (hops : Installs granted ops) (htogether : Together granted g h) :
    SameTunnels (after cfg ops) g h := by
  induction ops using List.reverseRecOn with
  | nil => rfl
  | append_singleton ops op ih =>
      rw [after_concat]
      refine sameTunnels_call ?_ (ih fun γ c hin => hops γ c (List.mem_append_left _ hin))
      rintro γ c rfl
      exact htogether γ (hops γ c (by simp))

/-! ### A spelling that stays granted -/

/-- While `g` has tunnels, `name` has tunnels of the same client with the same stable ids, and the client is
one that is granted `g`. -/
def Follows (granted : ClientGrant → Prop) (t : RoutingTable) (g name : Text) : Prop :=
  ∀ e, t.inner.lookup g = some e → (∃ γ, granted γ ∧ g ∈ γ.hosts ∧ γ.clientName = e.clientName) ∧
    ∃ e', t.inner.lookup name = some e' ∧ e'.clientName = e.clientName ∧
      ∀ d ∈ e.conns, ∃ d' ∈ e'.conns, d'.stableId = d.stableId

/-- A connection that is given an entry is in it, or another one with its stable id is. -/
theorem exists_mem_give (e : HostRoutes) (n : Text) (mode : TlsMode) (b : Balance) (c : Connection) :
    ∃ d ∈ (e.give n mode b c).1.conns, d.stableId = c.stableId := by
  cases b with
  | lastWriteWins => exact ⟨c, List.mem_singleton_self c, rfl⟩
  | roundRobin =>
      rw [HostRoutes.give_roundRobin]
      split_ifs with hid hn
      · exact hid.1
      · exact ⟨c, by simp, rfl⟩
      · exact ⟨c, List.mem_singleton_self c, rfl⟩

/-- Round-robin takes no connection away from its own client. -/
theorem mem_give_roundRobin {n : Text} {mode : TlsMode} {c d : Connection} (hn : e.clientName = n)
    (hd : d ∈ e.conns) : d ∈ (e.give n mode .roundRobin c).1.conns := by
  rw [HostRoutes.give_roundRobin]
  split_ifs with hid
  · exact hd
  · exact List.mem_append_left _ hd

theorem follows_install {γ : ClientGrant} {c : Connection} (haccompanied : Accompanied granted g name)
    (hγ : granted γ) (ht : Follows granted t g name) : Follows granted (t.call (.install γ c)) g name := by
  intro e he
  by_cases hin : g ∈ γ.hosts
  · -- both entries are given to the connection
    obtain ⟨mode, hmode⟩ := lookup_call_of_mem (t := t) (c := c) hin
    obtain ⟨mode', hmode'⟩ := lookup_call_of_mem (t := t) (c := c) (haccompanied.named γ hγ hin)
    rw [hmode] at he
    obtain rfl := Option.some.inj he
    refine ⟨⟨γ, hγ, hin, HostRoutes.give_clientName.symm⟩, _, hmode', ?_, ?_⟩
    · rw [HostRoutes.give_clientName, HostRoutes.give_clientName]
    · intro d hd
      rcases HostRoutes.mem_of_mem_give hd with rfl | ⟨hold, hname⟩
      · exact exists_mem_give _ _ _ _ _
      · cases hbalance : γ.balance with
        | lastWriteWins =>
            rw [hbalance, HostRoutes.give_lastWriteWins, List.mem_singleton] at hd
            rw [hd]
            exact exists_mem_give _ _ _ _ _
        | roundRobin =>
            cases hg : t.inner.lookup g with
            | none =>
                rw [hg] at hold
                cases hold
            | some e₀ =>
                rw [hg] at hold hname
                obtain ⟨-, e', he', hname', hids⟩ := ht e₀ hg
                obtain ⟨d', hd', hid⟩ := hids d hold
                rw [he']
                exact ⟨d', mem_give_roundRobin (hname'.trans hname) hd', hid⟩
  · rw [lookup_call_of_notMem hin] at he
    obtain ⟨⟨γ', hγ', hin', hclient⟩, e', he', hname, hids⟩ := ht e he
    refine ⟨⟨γ', hγ', hin', hclient⟩, ?_⟩
    by_cases hnamed : name ∈ γ.hosts
    · -- a grant without `g` joins the client that has both
      obtain ⟨hbalance, hsame⟩ := haccompanied.joins γ hγ hnamed hin
      obtain ⟨mode, hmode⟩ := lookup_call_of_mem (t := t) (c := c) hnamed
      have hown : e'.clientName = γ.clientName := hname.trans (hclient.symm.trans (hsame γ' hγ' hin'))
      rw [he', Option.getD_some, hbalance] at hmode
      refine ⟨_, hmode, ?_, ?_⟩
      · rw [HostRoutes.give_clientName, ← hown, hname]
      · intro d hd
        obtain ⟨d', hd', hid⟩ := hids d hd
        exact ⟨d', mem_give_roundRobin hown hd', hid⟩
    · exact ⟨e', by rw [lookup_call_of_notMem hnamed, he'], hname, hids⟩

theorem follows_call {op : Op} (haccompanied : Accompanied granted g name)
    (hop : ∀ γ c, op = .install γ c → granted γ) (ht : Follows granted t g name) :
    Follows granted (t.call op) g name := by
  cases op with
  | install γ c => exact follows_install haccompanied (hop γ c rfl) ht
  | removeConn stableId =>
      intro e he
      obtain ⟨e₀, he₀, hne, rfl⟩ := lookup_removeConn.mp he
      obtain ⟨hclient, e', he', hname, hids⟩ := ht e₀ he₀
      have hkept : ∀ d ∈ e₀.conns.filter fun c => c.stableId ≠ stableId,
          ∃ d' ∈ e'.conns.filter fun c => c.stableId ≠ stableId, d'.stableId = d.stableId := by
        intro d hd
        obtain ⟨hd, hid⟩ := List.mem_filter.mp hd
        obtain ⟨d', hd', hsame⟩ := hids d hd
        exact ⟨d', List.mem_filter.mpr ⟨hd', by rw [hsame]; exact hid⟩, hsame⟩
      obtain ⟨d, hd⟩ := List.exists_mem_of_ne_nil _ hne
      obtain ⟨d', hd', -⟩ := hkept d hd
      exact ⟨hclient, _, lookup_removeConn.mpr ⟨e', he', List.ne_nil_of_mem hd', rfl⟩, hname, hkept⟩
  | kick clientName =>
      intro e he
      obtain ⟨he, hne⟩ := lookup_kick.mp he
      obtain ⟨hclient, e', he', hname, hids⟩ := ht e he
      exact ⟨hclient, e', lookup_kick.mpr ⟨he', by rw [hname]; exact hne⟩, hname, hids⟩
  | setTerminated full => exact ht
  | lookup isOpen host =>
      intro e he
      obtain ⟨cursor, hcursor⟩ := lookup_lookup t isOpen host g
      obtain ⟨cursor', hcursor'⟩ := lookup_lookup t isOpen host name
      change (t.lookup isOpen host).2.inner.lookup g = some e at he
      rw [hcursor] at he
      obtain ⟨e₀, he₀, rfl⟩ := Option.map_eq_some_iff.mp he
      obtain ⟨hclient, e', he', hname, hids⟩ := ht e₀ he₀
      refine ⟨hclient, { e' with cursor := cursor' e' }, ?_, hname, hids⟩
      change (t.lookup isOpen host).2.inner.lookup name = _
      rw [hcursor', he']
      rfl

theorem follows_after (hops : Installs granted ops) (haccompanied : Accompanied granted g name) :
    Follows granted (after cfg ops) g name := by
  induction ops using List.reverseRecOn with
  | nil =>
      intro e he
      cases he
  | append_singleton ops op ih =>
      rw [after_concat]
      refine follows_call haccompanied ?_ (ih fun γ c hin => hops γ c (List.mem_append_left _ hin))
      rintro γ c rfl
      exact hops γ c (by simp)

/-! ### Which spellings reach a host -/

/-- Where an upstream takes a host up to letter case. -/
theorem upstream_after (hgh : toAsciiLowercase h = toAsciiLowercase g)
    (hexact : toAsciiLowercase g ∉ (fromConfig cfg.hostnames cfg.upstreams).locals) :
    (after cfg ops).upstream h = none ↔
      ¬ Unnamed cfg ops (toAsciiLowercase g) ∨ wildcardOf cfg (toAsciiLowercase g) = none := by
  have hlocal : toAsciiLowercase h ∉ (after cfg ops).locals := by
    rw [(config_after cfg ops).1, hgh]
    exact hexact
  rw [upstream_eq_wildcard hlocal, hgh]
  cases hup : (after cfg ops).wildcardUpstream (toAsciiLowercase g) with
  | some up =>
      obtain ⟨hunnamed, hwild⟩ := wildcardUpstream_after.mp hup
      simp [hunnamed, hwild]
  | none =>
      refine iff_of_true rfl ?_
      by_contra hno
      push Not at hno
      obtain ⟨up, hwild⟩ := Option.ne_none_iff_exists'.mp hno.2
      rw [wildcardUpstream_after.mpr ⟨hno.1, hwild⟩] at hup
      cases hup

theorem matched_of_together (htogether : Together granted g h)
    (hgh : toAsciiLowercase h = toAsciiLowercase g)
    (hup : ∀ ops, Installs granted ops → g ∈ (after cfg ops).inner → (after cfg ops).upstream h = none) :
    MatchedThroughout cfg granted g h := by
  intro ops hops hwrap isOpen e he hopen
  obtain ⟨hterm, hoff⟩ := mode_congr (t := after cfg ops) hgh
  refine ⟨?_, hterm, hoff⟩
  have hsame : SameTunnels (after cfg ops) g h := sameTunnels_after hops htogether
  unfold SameTunnels at hsame
  rw [he] at hsame
  obtain ⟨e', he', htunnels⟩ := Option.map_eq_some_iff.mp hsame.symm
  have hconns : e'.conns = e.conns := (Prod.mk.inj htunnels).2
  have hin : g ∈ (after cfg ops).inner := AList.lookup_isSome.mp (by rw [he]; rfl)
  obtain ⟨r, hr, hmem⟩ := exists_lookup_tunnel (hup ops hops hin) he' (hwrap e' he') (by rw [hconns]; exact hopen)
  exact ⟨r, e, hr, he, hconns ▸ hmem⟩

/-! ### Which spellings do not -/

section

variable {γ γ' : ClientGrant}

/-- Nothing is provisioned, and a connection is installed. -/
def oneInstall (γ : ClientGrant) : List Op := [.setTerminated [], .install γ (.nth 0)]

/-- A second one is installed after it. -/
def twoInstalls (γ γ' : ClientGrant) : List Op := oneInstall γ ++ [.install γ' (.nth 1)]

theorem installs_oneInstall (hγ : granted γ) : Installs granted (oneInstall γ) := by
  intro γ' c hin
  simp only [oneInstall, List.mem_cons, reduceCtorEq, Op.install.injEq, List.not_mem_nil, or_false,
    false_or] at hin
  exact hin.1 ▸ hγ

theorem installs_twoInstalls (hγ : granted γ) (hγ' : granted γ') : Installs granted (twoInstalls γ γ') := by
  intro γ₁ c hin
  rcases List.mem_append.mp hin with hin | hin
  · exact installs_oneInstall hγ γ₁ c hin
  · obtain ⟨rfl, -⟩ := Op.install.inj (List.mem_singleton.mp hin)
    exact hγ'

theorem lookup_oneInstall (cfg : ServerConfig) (hin : h ∈ γ.hosts) :
    ∃ mode, (after cfg (oneInstall γ)).inner.lookup h = some ⟨γ.clientName, mode, [.nth 0], 0⟩ := by
  obtain ⟨mode, hmode⟩ := lookup_call_of_mem (t := after cfg [.setTerminated []]) (c := .nth 0) hin
  refine ⟨mode, hmode.trans ?_⟩
  change some ((HostRoutes.vacant γ.clientName mode).give γ.clientName mode γ.balance (.nth 0)).1 = _
  rw [give_vacant]

theorem lookup_oneInstall_of_notMem (cfg : ServerConfig) (hnot : h ∉ γ.hosts) :
    (after cfg (oneInstall γ)).inner.lookup h = none :=
  (lookup_call_of_notMem (t := after cfg [.setTerminated []]) hnot).trans rfl

theorem lookup_twoInstalls_of_notMem (cfg : ServerConfig) (hnot : h ∉ γ'.hosts) :
    (after cfg (twoInstalls γ γ')).inner.lookup h = (after cfg (oneInstall γ)).inner.lookup h := by
  unfold twoInstalls
  rw [after_concat, lookup_call_of_notMem hnot]

/-- The second connection displaces the first or joins it. -/
theorem lookup_twoInstalls (cfg : ServerConfig) (hin : h ∈ γ.hosts) (hin' : h ∈ γ'.hosts) :
    ∃ e, (after cfg (twoInstalls γ γ')).inner.lookup h = some e ∧ e.cursor = 0 ∧
      (e.conns = [.nth 1] ∨
        γ'.balance = .roundRobin ∧ γ.clientName = γ'.clientName ∧ e.conns = [.nth 0, .nth 1]) := by
  obtain ⟨mode, hfirst⟩ := lookup_oneInstall cfg hin
  obtain ⟨mode', hsecond⟩ := lookup_call_of_mem (t := after cfg (oneInstall γ)) (c := .nth 1) hin'
  unfold twoInstalls
  rw [after_concat]
  refine ⟨_, hsecond, ?_⟩
  rw [hfirst, Option.getD_some]
  cases hbalance : γ'.balance with
  | lastWriteWins => exact ⟨rfl, .inl rfl⟩
  | roundRobin =>
      by_cases hn : γ.clientName = γ'.clientName
      · refine ⟨?_, .inr ⟨rfl, hn, ?_⟩⟩
        · simp [HostRoutes.give, hn, Connection.nth]
        · simp [HostRoutes.give, hn, Connection.nth]
      · refine ⟨?_, .inl ?_⟩
        · simp [HostRoutes.give, hn]
        · simp [HostRoutes.give, hn]

/-- What a lookup does to the entry that it finds. -/
theorem lookup_call_lookup (hup : t.upstream h = none) (he : t.inner.lookup h = some e)
    (hn : 0 < e.conns.length) (isOpen : Connection → Bool) (x : Text) :
    (t.call (.lookup isOpen h)).inner.lookup x =
      if x = h then
        some { e with cursor := (CyclicScan.scan isOpen e.conns hn e.conns.length e.cursor).2 }
      else t.inner.lookup x := by
  change (t.lookup isOpen h).2.inner.lookup x = _
  unfold lookup
  simp only [hup, he, dif_pos hn]
  exact AssocMap.lookup_insert_eq_ite ..

/-- The one entry that there is has a cursor far from its end. -/
theorem fits_of_eq {o : Option HostRoutes} {n : Text} {mode : TlsMode} {conns : List Connection} {cursor : UInt64}
    (ho : o = some ⟨n, mode, conns, cursor⟩) (hfits : cursor.toNat + conns.length ≤ 2 ^ 64) :
    ∀ e, o = some e → e.cursor.toNat + e.conns.length ≤ 2 ^ 64 := by
  intro e he
  cases ho.symm.trans he
  exact hfits

/-- A matched lookup goes to no upstream, and takes a connection that both entries have. -/
theorem MatchedAs.shared {isOpen : Connection → Bool} (hm : MatchedAs t isOpen g h) :
    t.upstream h = none ∧ ∃ e e' conn, t.inner.lookup g = some e ∧ t.inner.lookup h = some e' ∧
      conn ∈ e.conns ∧ Next isOpen e' conn := by
  obtain ⟨⟨r, e, hr, he, hmem⟩, -⟩ := hm
  obtain ⟨hup, e', he', hnext, -⟩ := lookup_eq_tunnel_iff.mp hr
  exact ⟨hup, e, e', r.conn, he, he', hmem, hnext⟩

theorem Next.mem {isOpen : Connection → Bool} {conn : Connection} (hnext : Next isOpen e conn) :
    conn ∈ e.conns := by
  obtain ⟨hn, j, -, hpick, -⟩ := hnext
  exact hpick ▸ CyclicScan.pick_mem ..

/-- Spellings that reach a host are granted together with it. -/
theorem together_of_matched (hg : ∃ γ, granted γ ∧ g ∈ γ.hosts) (hm : MatchedThroughout cfg granted g h) :
    Together granted g h := by
  have hfirst : ∀ γ, granted γ → g ∈ γ.hosts → h ∈ γ.hosts := by
    intro γ hγ hin
    by_contra hnot
    have hnone := lookup_oneInstall_of_notMem cfg hnot
    obtain ⟨mode, he⟩ := lookup_oneInstall cfg hin
    have hmatched := hm (oneInstall γ) (installs_oneInstall hγ) (fun e he => by rw [hnone] at he; cases he)
      (fun _ => true) _ he ⟨.nth 0, List.mem_singleton_self _, rfl⟩
    obtain ⟨-, -, e', -, -, he', -⟩ := hmatched.shared
    rw [hnone] at he'
    cases he'
  intro γ' hγ'
  refine ⟨hfirst γ' hγ', fun hin' => ?_⟩
  by_contra hnot
  obtain ⟨γ, hγ, hin⟩ := hg
  have hgh : g ≠ h := fun heq => hnot (heq ▸ hin')
  -- the second connection gets `h` and not `g`
  obtain ⟨mode, hentry⟩ := lookup_oneInstall cfg hin
  rw [← lookup_twoInstalls_of_notMem cfg hnot] at hentry
  obtain ⟨e', he', hcursor, hconns⟩ := lookup_twoInstalls cfg (hfirst γ hγ hin) hin'
  have hops := installs_twoInstalls hγ hγ'
  have hwrap : ∀ e, (after cfg (twoInstalls γ γ')).inner.lookup h = some e →
      e.cursor.toNat + e.conns.length ≤ 2 ^ 64 := by
    intro e he
    obtain rfl := Option.some.inj (he'.symm.trans he)
    rcases hconns with hconns | ⟨-, -, hconns⟩
    · rw [hcursor, hconns]
      decide
    · rw [hcursor, hconns]
      decide
  have hmatched := hm _ hops hwrap (fun _ => true) _ hentry ⟨.nth 0, List.mem_singleton_self _, rfl⟩
  obtain ⟨hup, e₁, e₂, conn, he₁, he₂, hmem, hnext⟩ := hmatched.shared
  obtain rfl := Option.some.inj (hentry.symm.trans he₁)
  obtain rfl := Option.some.inj (he'.symm.trans he₂)
  obtain rfl := List.mem_singleton.mp hmem
  rcases hconns with hconns | ⟨-, -, hconns⟩
  · exact absurd (hconns ▸ hnext.mem) (by decide)
  · -- the next lookup of `h` would take the second connection
    obtain ⟨n, mode', conns, cursor⟩ := e'
    obtain rfl : cursor = 0 := hcursor
    obtain rfl : conns = [.nth 0, .nth 1] := hconns
    have hcall := lookup_call_lookup hup he' Nat.zero_lt_two (fun _ => true)
    rw [← after_concat] at hcall
    have hg' := (hcall g).trans (if_neg hgh)
    have hh' : (after cfg (twoInstalls γ γ' ++ [.lookup (fun _ => true) h])).inner.lookup h =
        some ⟨n, mode', [.nth 0, .nth 1], 1⟩ := (hcall h).trans (if_pos rfl)
    rw [hentry] at hg'
    have hops' : Installs granted (twoInstalls γ γ' ++ [.lookup (fun _ => true) h]) := by
      intro γ₁ c hmem
      exact hops γ₁ c ((List.mem_append.mp hmem).resolve_right (by simp))
    have hmatched' := hm _ hops' (fits_of_eq hh' (by decide)) (fun _ => true) _ hg'
      ⟨.nth 0, List.mem_singleton_self _, rfl⟩
    obtain ⟨-, e₁, e₂, conn, he₁, he₂, hmem', hn, j, hj, hpick, -, hfirst'⟩ := hmatched'.shared
    cases hg'.symm.trans he₁
    cases hh'.symm.trans he₂
    obtain rfl := List.mem_singleton.mp hmem'
    rcases j with _ | j
    · have hsecond : CyclicScan.pick [Connection.nth 0, .nth 1] hn (1 + UInt64.ofNat 0) = .nth 1 := rfl
      exact absurd (hsecond.symm.trans hpick) (by decide)
    · exact absurd (hfirst' 0 (Nat.succ_pos j)).symm Bool.false_ne_true

/-- Where a wildcard upstream matches a host that no hostname of the configuration names, the lower-case
spelling stays granted while the host is. -/
theorem accompanied_of_matched (hg : ∃ γ, granted γ ∧ g ∈ γ.hosts)
    (hgh : toAsciiLowercase h = toAsciiLowercase g)
    (hexact : toAsciiLowercase g ∉ (fromConfig cfg.hostnames cfg.upstreams).locals)
    (hnone : ∀ e ∈ cfg.hostnames, toAsciiLowercase e.host ≠ toAsciiLowercase g)
    (hwild : wildcardOf cfg (toAsciiLowercase g) ≠ none) (hm : MatchedThroughout cfg granted g h) :
    Accompanied granted g (toAsciiLowercase g) := by
  have htogether := together_of_matched hg hm
  -- a matched lookup is not left to the wildcard, and nothing but a tunnel keeps it away
  have htunnel : ∀ ops, provisioned cfg ops = [] → (after cfg ops).upstream h = none →
      (after cfg ops).inner.lookup (toAsciiLowercase g) ≠ none := by
    intro ops hlist hup hentry
    have hunnamed : Unnamed cfg ops (toAsciiLowercase g) :=
      ⟨hexact, hnone, by rw [hlist]; exact List.not_mem_nil, AList.lookup_eq_none.mp hentry⟩
    exact ((upstream_after hgh hexact).mp hup).elim (fun hnamed => hnamed hunnamed) hwild
  have hnamed : ∀ γ, granted γ → g ∈ γ.hosts → toAsciiLowercase g ∈ γ.hosts := by
    intro γ hγ hin
    by_contra hnot
    obtain ⟨mode, he⟩ := lookup_oneInstall cfg hin
    obtain ⟨mode', he'⟩ := lookup_oneInstall cfg ((htogether γ hγ).mp hin)
    have hmatched := hm _ (installs_oneInstall hγ) (fits_of_eq he' (by decide))
      (fun _ => true) _ he ⟨.nth 0, List.mem_singleton_self _, rfl⟩
    exact htunnel (oneInstall γ) rfl hmatched.shared.1 (lookup_oneInstall_of_notMem cfg hnot)
  refine ⟨hnamed, ?_⟩
  intro γ' hγ' hin' hnot
  -- otherwise the second connection displaces the first, and takes the lower-case spelling with it
  by_contra hother
  have hdisplaced : ∃ γ, granted γ ∧ g ∈ γ.hosts ∧
      ¬ (γ'.balance = .roundRobin ∧ γ.clientName = γ'.clientName) := by
    obtain ⟨γ, hγ, hin⟩ := hg
    by_contra hall
    push Not at hall
    exact hother ⟨(hall γ hγ hin).1, fun γ₁ hγ₁ hin₁ => (hall γ₁ hγ₁ hin₁).2⟩
  obtain ⟨γ, hγ, hin, hjoins⟩ := hdisplaced
  obtain ⟨e, he, -, hconns⟩ := lookup_twoInstalls cfg (hnamed γ hγ hin) hin'
  replace hconns : e.conns = [.nth 1] :=
    hconns.resolve_right fun hjoined => hjoins ⟨hjoined.1, hjoined.2.1⟩
  let ops := twoInstalls γ γ' ++ [.removeConn 1]
  have hops : Installs granted ops := by
    intro γ₁ c hmem
    exact installs_twoInstalls hγ hγ' γ₁ c ((List.mem_append.mp hmem).resolve_right (by simp))
  have hkept : ∀ x, x ∈ γ.hosts → x ∉ γ'.hosts →
      ∃ mode, (after cfg ops).inner.lookup x = some ⟨γ.clientName, mode, [.nth 0], 0⟩ := by
    intro x hx hx'
    obtain ⟨mode, hentry⟩ := lookup_oneInstall cfg hx
    refine ⟨mode, ?_⟩
    rw [after_concat, lookup_call_removeConn, lookup_twoInstalls_of_notMem cfg hx', hentry]
    rfl
  have hgone : (after cfg ops).inner.lookup (toAsciiLowercase g) = none := by
    rw [after_concat, lookup_call_removeConn, he, Option.bind_some, hconns]
    rfl
  obtain ⟨mode, hentry⟩ := hkept g hin hnot
  obtain ⟨mode', hentry'⟩ := hkept h ((htogether γ hγ).mp hin) (mt (htogether γ' hγ').mpr hnot)
  have hmatched := hm ops hops (fits_of_eq hentry' (by decide)) (fun _ => true) _ hentry
    ⟨.nth 0, List.mem_singleton_self _, rfl⟩
  exact htunnel ops rfl hmatched.shared.1 hgone

/-- **Which spellings of a granted host reach its tunnels**, in all tables that are reached with grants of a
given kind. -/
theorem lookup_up_to_case_iff (hg : ∃ γ, granted γ ∧ g ∈ γ.hosts)
    (hgh : toAsciiLowercase h = toAsciiLowercase g)
    (hexact : toAsciiLowercase g ∉ (fromConfig cfg.hostnames cfg.upstreams).locals) :
    MatchedThroughout cfg granted g h ↔
      Together granted g h ∧
        ((∃ e ∈ cfg.hostnames, toAsciiLowercase e.host = toAsciiLowercase g) ∨
          wildcardOf cfg (toAsciiLowercase g) = none ∨ Accompanied granted g (toAsciiLowercase g)) := by
  constructor
  · intro hm
    refine ⟨together_of_matched hg hm, ?_⟩
    by_cases hnamed : ∃ e ∈ cfg.hostnames, toAsciiLowercase e.host = toAsciiLowercase g
    · exact .inl hnamed
    · by_cases hwild : wildcardOf cfg (toAsciiLowercase g) = none
      · exact .inr (.inl hwild)
      · push Not at hnamed
        exact .inr (.inr (accompanied_of_matched hg hgh hexact hnamed hwild hm))
  · rintro ⟨htogether, hkept⟩
    refine matched_of_together htogether hgh fun ops hops hin => (upstream_after hgh hexact).mpr ?_
    rcases hkept with ⟨e, he, hname⟩ | hwild | haccompanied
    · exact .inl fun hunnamed => hunnamed.2.1 e he hname
    · exact .inr hwild
    · -- the tunnel of the lower-case spelling keeps the wildcard away
      obtain ⟨e, he⟩ := Option.isSome_iff_exists.mp (AList.lookup_isSome.mpr hin)
      have hfollows : Follows granted (after cfg ops) g (toAsciiLowercase g) := follows_after hops haccompanied
      obtain ⟨-, e', he', -⟩ := hfollows e he
      exact .inl fun hunnamed => hunnamed.2.2.2 (AList.lookup_isSome.mp (by rw [he']; rfl))

end

/-- A grant of one host in two spellings. -/
def upperAndLower : ClientGrant := ⟨['c'], .roundRobin, [(['A'], .terminated), (['a'], .terminated)]⟩

/-- Where all grants name both spellings, a catch-all upstream takes neither of them, and each reaches the
tunnels of the other: two tunnels are up, one is removed, and the other is found. -/
theorem lookup_up_to_case_two :
    MatchedThroughout catchAll (· = upperAndLower) ['A'] ['a'] ∧
      MatchedAs (after catchAll [.install upperAndLower (.nth 0), .install upperAndLower (.nth 1), .removeConn 0])
        (fun _ => true) ['A'] ['a'] := by
  have hnames : ∀ γ, γ = upperAndLower → ['A'] ∈ γ.hosts ∧ ['a'] ∈ γ.hosts := by
    rintro γ rfl
    decide
  have htogether : Together (· = upperAndLower) ['A'] ['a'] :=
    fun γ hγ => iff_of_true (hnames γ hγ).1 (hnames γ hγ).2
  have haccompanied : Accompanied (· = upperAndLower) ['A'] (toAsciiLowercase ['A']) :=
    ⟨fun γ hγ _ => (hnames γ hγ).2, fun γ hγ _ hnot => absurd (hnames γ hγ).1 hnot⟩
  have hgranted : ∃ γ, γ = upperAndLower ∧ ['A'] ∈ γ.hosts := ⟨_, rfl, (hnames _ rfl).1⟩
  have hcase : toAsciiLowercase ['a'] = toAsciiLowercase ['A'] := by decide
  have hexact : toAsciiLowercase ['A'] ∉ (fromConfig catchAll.hostnames catchAll.upstreams).locals := by decide
  have hm : MatchedThroughout catchAll (· = upperAndLower) ['A'] ['a'] :=
    (lookup_up_to_case_iff hgranted hcase hexact).mpr
      ⟨htogether, .inr (.inr haccompanied)⟩
  refine ⟨hm, hm _ ?_ (fits_of_eq rfl (by decide)) (fun _ => true) _ rfl ⟨.nth 1, by decide, rfl⟩⟩
  intro γ c hin
  simp only [List.mem_cons, Op.install.injEq, reduceCtorEq, List.not_mem_nil, or_false] at hin
  rcases hin with ⟨rfl, -⟩ | ⟨rfl, -⟩
  · rfl
  · rfl

/-- A host configured and granted in upper case, with its tunnel up: the lower-case name, under which
public clients ask, has the mode of the host and no route. -/
theorem lookup_up_to_case_miss :
    ∃ t, Runs.run step [.install ⟨['c'], .lastWriteWins, [(['A'], .terminated)]⟩ (.nth 0)]
        (fromConfig [{ host := ['A'], client := ['c'], tlsMode := .terminated }] []) = some t ∧
      (∃ e, t.inner.lookup ['A'] = some e ∧ .nth 0 ∈ e.conns) ∧ toAsciiLowercase ['A'] ∉ t.locals ∧
      t.isTerminated ['a'] = true ∧ (t.lookup (fun _ => true) ['a']).1 = none ∧
      ¬ MatchedAs t (fun _ => true) ['A'] ['a'] := by
  refine ⟨_, rfl, ⟨_, rfl, by decide⟩, by decide, by decide, rfl, ?_⟩
  rintro ⟨⟨r, e, hfound, -⟩, -⟩
  cases hfound

end RoutingTable

end Tuyau
