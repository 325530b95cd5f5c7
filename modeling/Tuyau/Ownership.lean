import Tuyau.Backend
import Tuyau.Leases
import Tuyau.Routes

/-! # Who owns which hostname

The first half is about the table alone: `Op` are its operations, `step` performs one of them,
and `lastGrant c ops` is the grant under which a sequence of operations last installed the
connection `c`.  A connection is installed only while the table does not hold it already.
`one_identity_per_host` says of every sequence of operations from a configuration that each
entry has connections, with distinct stable ids, that were all installed for its host under its
client, and that no connection serves two clients.

The second half reads the table as leases of hosts to connections in the name of clients:
`serving` forgets modes, cursors and the order of connections.  Under it `removeConn` is
`Leases.release`, `kick` is `Leases.revoke`, `install` is `Leases.assign` and returns exactly
the displaced members, as long as a stable id in the table tells its connection
(`serving_removeConn`, `serving_kick`, `serving_install`). -/

namespace Tuyau

open AsciiText

/-! ### Giving an entry to a connection -/

namespace HostRoutes

variable {e : HostRoutes} {n : Text} {mode : TlsMode} {b : Balance} {c d : Connection}

@[simp] theorem give_clientName : (e.give n mode b c).1.clientName = n := by
  cases b with
  | lastWriteWins => rfl
  | roundRobin => rw [give]; split_ifs <;> rfl

@[simp] theorem give_tlsMode : (e.give n mode b c).1.tlsMode = mode := by
  cases b with
  | lastWriteWins => rfl
  | roundRobin => rw [give]; split_ifs <;> rfl

theorem give_lastWriteWins : (e.give n mode .lastWriteWins c).1.conns = [c] := rfl

/-- Under round-robin a connection joins those of its own client. -/
theorem give_roundRobin :
    (e.give n mode .roundRobin c).1.conns =
      if (∃ d ∈ e.conns, d.stableId = c.stableId) ∧ e.clientName = n then e.conns
      else if e.clientName = n then e.conns ++ [c] else [c] := by
  by_cases hn : e.clientName = n
  · by_cases hid : ∃ d ∈ e.conns, d.stableId = c.stableId
    · simp [give, hn, hid]
    · simp [give, hn, hid]
  · simp [give, hn]

theorem mem_of_mem_give (h : d ∈ (e.give n mode b c).1.conns) :
    d = c ∨ d ∈ e.conns ∧ e.clientName = n := by
  cases b with
  | lastWriteWins =>
      rw [give_lastWriteWins] at h
      exact .inl (List.mem_singleton.mp h)
  | roundRobin =>
      rw [give_roundRobin] at h
      split_ifs at h with h₁ h₂
      · exact .inr ⟨h, h₁.2⟩
      · rcases List.mem_append.mp h with h | h
        · exact .inr ⟨h, h₂⟩
        · exact .inl (List.mem_singleton.mp h)
      · exact .inl (List.mem_singleton.mp h)

theorem give_ne_nil : (e.give n mode b c).1.conns ≠ [] := by
  cases b with
  | lastWriteWins => simp [give_lastWriteWins]
  | roundRobin =>
      rw [give_roundRobin]
      split_ifs with h₁
      · obtain ⟨⟨d, hd, -⟩, -⟩ := h₁
        exact List.ne_nil_of_mem hd
      · simp
      · simp

theorem give_nodup (h : (e.conns.map Connection.stableId).Nodup) :
    ((e.give n mode b c).1.conns.map Connection.stableId).Nodup := by
  cases b with
  | lastWriteWins => simp [give_lastWriteWins]
  | roundRobin =>
      rw [give_roundRobin]
      split_ifs with h₁ h₂
      · exact h
      · rw [List.map_append, List.nodup_append]
        refine ⟨h, by simp, ?_⟩
        intro i hi j hj hij
        obtain ⟨d, hd, rfl⟩ := List.mem_map.mp hi
        obtain rfl : j = c.stableId := by simpa using hj
        exact h₁ ⟨⟨d, hd, hij⟩, h₂⟩
      · simp

/-- The connections after a grant, where the stable id of `c` is nobody else's. -/
theorem mem_give_iff (hsole : ∀ d ∈ e.conns, d.stableId = c.stableId → d = c) :
    d ∈ (e.give n mode b c).1.conns ↔ d = c ∨ b = .roundRobin ∧ e.clientName = n ∧ d ∈ e.conns := by
  cases b with
  | lastWriteWins => simp [give_lastWriteWins]
  | roundRobin =>
      rw [give_roundRobin]
      split_ifs with h₁ h₂
      · obtain ⟨⟨d₀, hd₀, hid⟩, hn⟩ := h₁
        have hc : c ∈ e.conns := hsole d₀ hd₀ hid ▸ hd₀
        constructor
        · exact fun h => .inr ⟨rfl, hn, h⟩
        · rintro (rfl | ⟨-, -, h⟩)
          · exact hc
          · exact h
      · simp [h₂, or_comm]
      · simp [h₂]

/-- The displaced connections, where the stable id of `c` is nobody else's and `c` serves no
other client. -/
theorem mem_displaced_give_iff
    (hsole : ∀ d ∈ e.conns, d.stableId = c.stableId → d = c ∧ e.clientName = n) :
    d ∈ (e.give n mode b c).2 ↔ d ≠ c ∧ d ∈ e.conns ∧ (e.clientName = n → ¬ b = .roundRobin) := by
  by_cases hn : e.clientName = n
  · cases b with
    | lastWriteWins =>
        have hid : d ∈ e.conns → (d.stableId ≠ c.stableId ↔ d ≠ c) :=
          fun hd => ⟨fun h hdc => h (hdc ▸ rfl), fun h hs => h (hsole d hd hs).1⟩
        simp only [give, hn, ne_eq, not_true_eq_false, if_false, List.nil_append, List.mem_filter,
          decide_not, Bool.not_eq_true', decide_eq_false_iff_not]
        constructor
        · rintro ⟨hd, hne⟩
          exact ⟨(hid hd).mp hne, hd, by simp⟩
        · rintro ⟨hne, hd, -⟩
          exact ⟨hd, (hid hd).mpr hne⟩
    | roundRobin =>
        have hnil : (e.give n mode .roundRobin c).2 = [] := by
          rw [give]; split_ifs <;> simp_all
        simp [hnil, hn]
  · have hall : (e.give n mode b c).2 = e.conns := by
      cases b with
      | lastWriteWins => simp [give, hn]
      | roundRobin => simp [give, hn]
    rw [hall]
    constructor
    · intro hd
      refine ⟨?_, hd, fun h => absurd h hn⟩
      rintro rfl
      exact hn (hsole d hd rfl).2
    · exact fun h => h.2.1

end HostRoutes

namespace RoutingTable

/-! ### Operations on the table -/

/-- The table holds the connection under some host. -/
def Holds (t : RoutingTable) (c : Connection) : Prop := ∃ e ∈ t.inner.entries, c ∈ e.2.conns

instance (t : RoutingTable) (c : Connection) : Decidable (t.Holds c) :=
  inferInstanceAs (Decidable (∃ e ∈ t.inner.entries, c ∈ e.2.conns))

theorem holds_iff {t : RoutingTable} {c : Connection} :
    t.Holds c ↔ ∃ h e, t.inner.lookup h = some e ∧ c ∈ e.conns := by
  constructor
  · rintro ⟨⟨h, e⟩, he, hc⟩
    exact ⟨h, e, AList.mem_lookup_iff.mpr he, hc⟩
  · rintro ⟨h, e, he, hc⟩
    exact ⟨⟨h, e⟩, AList.mem_lookup_iff.mp he, hc⟩

/-- An operation on the table. -/
inductive Op where
  | install (grant : ClientGrant) (conn : Connection)
  | removeConn (stableId : ℕ)
  | kick (clientName : Text)
  | setTerminated (full : List Text)
  | lookup (isOpen : Connection → Bool) (host : Text)

/-- The table after an operation. -/
def call (t : RoutingTable) : Op → RoutingTable
  | .install g c => (t.install g.hostnames g.clientName g.balance c).2
  | .removeConn stableId => t.removeConn stableId
  | .kick clientName => (t.kick clientName).2
  | .setTerminated full => t.setTerminated full
  | .lookup isOpen host => (t.lookup isOpen host).2

/-- Perform an operation; a connection is installed only while the table does not hold it. -/
def step (t : RoutingTable) : Op → Option RoutingTable
  | .install g c =>
      if t.Holds c then none else some (t.install g.hostnames g.clientName g.balance c).2
  | .removeConn stableId => some (t.removeConn stableId)
  | .kick clientName => some (t.kick clientName).2
  | .setTerminated full => some (t.setTerminated full)
  | .lookup isOpen host => some (t.lookup isOpen host).2

/-- An operation keeps a property of all entries that giving an entry to a connection keeps or
creates, and that losing connections and moving the cursor keep. -/
theorem Entries.call {P : Text → HostRoutes → Prop} {t : RoutingTable} {op : Op}
    (hgive : ∀ g c, op = .install g c → ∀ p ∈ g.hostnames, ∀ e,
      P p.1 e ∨ e = .vacant g.clientName p.2 → P p.1 (e.give g.clientName p.2 g.balance c).1)
    (hfilter : ∀ stableId h e, P h e → (e.conns.filter fun c => c.stableId ≠ stableId) ≠ [] →
      P h { e with conns := e.conns.filter fun c => c.stableId ≠ stableId })
    (hcursor : ∀ h e cursor, P h e → P h { e with cursor }) (hP : Entries P t.inner) :
    Entries P (t.call op).inner := by
  cases op with
  | install g c => exact Entries.install (hgive g c rfl) hP
  | removeConn stableId => exact Entries.removeConn (hfilter stableId) hP
  | kick clientName => exact Entries.kick hP
  | setTerminated full => exact hP
  | lookup isOpen host => exact Entries.lookup hcursor hP

theorem eq_call_of_step {t t' : RoutingTable} {op : Op} (hstep : t.step op = some t') : t' = t.call op := by
  cases op with
  | install g c =>
      simp only [step] at hstep
      split_ifs at hstep
      exact (Option.some.inj hstep).symm
  | _ => exact (Option.some.inj hstep).symm

/-- Only `setTerminated` changes what the configuration set. -/
theorem sameConfig_call {t : RoutingTable} {op : Op} (hop : ∀ full, op ≠ .setTerminated full) :
    SameConfig t (t.call op) := by
  cases op with
  | install g c => exact sameConfig_install
  | removeConn stableId => exact sameConfig_removeConn
  | kick clientName => exact sameConfig_kick
  | setTerminated full => exact absurd rfl (hop full)
  | lookup isOpen host => exact sameConfig_lookup

theorem sameConfig_step {t t' : RoutingTable} {op : Op} (hstep : t.step op = some t')
    (hop : ∀ full, op ≠ .setTerminated full) : SameConfig t t' := by
  rw [eq_call_of_step hstep]
  exact sameConfig_call hop

/-- The grant under which an operation installs `c`, if it does. -/
def Op.grantTo (c : Connection) : Op → Option ClientGrant
  | .install g c' => if c' = c then some g else none
  | _ => none

/-- The grant under which `c` was installed last. -/
def lastGrant (c : Connection) (ops : List Op) : Option ClientGrant :=
  ops.foldl (fun g op => (op.grantTo c).or g) none

theorem lastGrant_concat (c : Connection) (ops : List Op) (op : Op) :
    lastGrant c (ops ++ [op]) = (op.grantTo c).or (lastGrant c ops) := by
  simp [lastGrant]

/-! ### One identity per hostname -/

/-- An entry of `host` after `ops`: its connections, of distinct stable ids, were all installed
for that host under its client. -/
structure Owned (ops : List Op) (host : Text) (e : HostRoutes) : Prop where
  nonempty : e.conns ≠ []
  distinct : (e.conns.map Connection.stableId).Nodup
  granted : ∀ c ∈ e.conns, ∃ g, lastGrant c ops = some g ∧ g.clientName = e.clientName ∧ host ∈ g.hosts

/-- An operation that does not install a connection of an entry leaves its history alone. -/
theorem Owned.concat {ops : List Op} {host : Text} {e : HostRoutes} {op : Op} (h : Owned ops host e)
    (hop : ∀ c ∈ e.conns, op.grantTo c = none) : Owned (ops ++ [op]) host e where
  nonempty := h.nonempty
  distinct := h.distinct
  granted c hc := by
    obtain ⟨g, hg, hn, hh⟩ := h.granted c hc
    exact ⟨g, by rw [lastGrant_concat, hop c hc, hg]; rfl, hn, hh⟩

/-- A granted host belongs to the grant's client afterwards. -/
theorem Owned.give {ops : List Op} {g : ClientGrant} {c : Connection} {p : Text × TlsMode}
    {e : HostRoutes} (hp : p ∈ g.hostnames)
    (he : Owned (ops ++ [.install g c]) p.1 e ∨ e = .vacant g.clientName p.2) :
    Owned (ops ++ [.install g c]) p.1 (e.give g.clientName p.2 g.balance c).1 where
  nonempty := HostRoutes.give_ne_nil
  distinct := by
    apply HostRoutes.give_nodup
    rcases he with he | rfl
    · exact he.distinct
    · simp [HostRoutes.vacant]
  granted d hd := by
    rw [HostRoutes.give_clientName]
    rcases HostRoutes.mem_of_mem_give hd with rfl | ⟨hd, hn⟩
    · exact ⟨g, by simp [lastGrant_concat, Op.grantTo], rfl, List.mem_map_of_mem hp⟩
    · rcases he with he | rfl
      · obtain ⟨g', hg', hn', hh⟩ := he.granted d hd
        exact ⟨g', hg', hn'.trans hn, hh⟩
      · simp [HostRoutes.vacant] at hd

/-- An operation installs no connection that the table holds. -/
theorem grantTo_eq_none {t t' : RoutingTable} {op : Op} (hstep : t.step op = some t') {c : Connection}
    (hc : t.Holds c) : op.grantTo c = none := by
  cases op with
  | install g c' =>
      simp only [step] at hstep
      split_ifs at hstep with hfresh
      have hne : c' ≠ c := by
        rintro rfl
        exact hfresh hc
      simp [Op.grantTo, hne]
  | _ => rfl

theorem owned_step {ops : List Op} {t t' : RoutingTable} {op : Op}
    (h : Entries (Owned ops) t.inner) (hstep : t.step op = some t') :
    Entries (Owned (ops ++ [op])) t'.inner := by
  rw [eq_call_of_step hstep]
  refine Entries.call ?_ ?_ ?_ ?_
  · rintro g c rfl p hp e he
    exact Owned.give hp he
  · intro stableId host e he hne
    refine ⟨hne, he.distinct.sublist (List.filter_sublist.map _), ?_⟩
    exact fun c hc => he.granted c (List.mem_filter.mp hc).1
  · exact fun host e cursor he => ⟨he.nonempty, he.distinct, he.granted⟩
  · intro host e he
    exact (h host e he).concat fun c hc => grantTo_eq_none hstep (holds_iff.mpr ⟨host, e, he, hc⟩)

theorem owned_run {hostnames : List HostnameEntry} {upstreams : List UpstreamEntry} {ops : List Op}
    {t : RoutingTable} (hrun : Runs.run step ops (fromConfig hostnames upstreams) = some t) :
    Entries (Owned ops) t.inner :=
  Runs.run_history (P := fun ops t => Entries (Owned ops) t.inner) entries_empty
    (fun _ _ _ _ _ h hstep => owned_step h hstep) hrun

/-- Every entry is owned by the client its connections were installed for, and no connection
serves two clients. -/
def OneIdentity (ops : List Op) (t : RoutingTable) : Prop :=
  (∀ host e, t.inner.lookup host = some e → Owned ops host e) ∧
    ∀ host host' e e' c, t.inner.lookup host = some e → t.inner.lookup host' = some e' →
      c ∈ e.conns → c ∈ e'.conns → e.clientName = e'.clientName

/-- A connection was last installed under one grant, so it serves one client. -/
theorem clientName_eq_of_owned {ops : List Op} {inner : AssocMap Text HostRoutes}
    (howned : Entries (Owned ops) inner) {host host' : Text} {e e' : HostRoutes} {c : Connection}
    (he : inner.lookup host = some e) (he' : inner.lookup host' = some e') (hc : c ∈ e.conns)
    (hc' : c ∈ e'.conns) : e.clientName = e'.clientName := by
  obtain ⟨g, hg, hn, -⟩ := (howned host e he).granted c hc
  obtain ⟨g', hg', hn', -⟩ := (howned host' e' he').granted c hc'
  rw [hg] at hg'
  obtain rfl := Option.some.inj hg'
  exact hn.symm.trans hn'

/-- **One identity per hostname**, over every sequence of operations. -/
theorem one_identity_per_host {hostnames : List HostnameEntry} {upstreams : List UpstreamEntry}
    {ops : List Op} {t : RoutingTable}
    (hrun : Runs.run step ops (fromConfig hostnames upstreams) = some t) : OneIdentity ops t := by
  have howned := owned_run hrun
  refine ⟨howned, ?_⟩
  intro host host' e e' c he he' hc hc'
  exact clientName_eq_of_owned howned he he' hc hc'

/-- Client `b` takes one of two hosts of `a` over, naming it twice, and `a` comes back for it. -/
theorem one_identity_per_host_takeover :
    ∃ ops t, Runs.run step ops (fromConfig [] []) = some t ∧
      ops = [.install ⟨['a'], .roundRobin, [(['x'], .terminated), (['y'], .terminated)]⟩ (.nth 0),
        .install ⟨['a'], .roundRobin, [(['y'], .terminated)]⟩ (.nth 1),
        .install ⟨['b'], .lastWriteWins, [(['x'], .passthrough), (['x'], .terminated)]⟩ (.nth 2),
        .removeConn 0,
        .install ⟨['a'], .lastWriteWins, [(['x'], .terminated)]⟩ (.nth 3)] ∧ OneIdentity ops t :=
  ⟨_, _, rfl, rfl, one_identity_per_host rfl⟩

/-! ### The table as leases -/

/-- Which connection serves which host in the name of which client. -/
def serving (inner : AssocMap Text HostRoutes) : Leases.Holdings Text Text Connection :=
  {x | ∃ e, inner.lookup x.1 = some e ∧ e.clientName = x.2.1 ∧ x.2.2 ∈ e.conns}

variable {inner : AssocMap Text HostRoutes} {t : RoutingTable} {h n : Text} {c d : Connection}

theorem mem_serving :
    (h, n, c) ∈ serving inner ↔ ∃ e, inner.lookup h = some e ∧ e.clientName = n ∧ c ∈ e.conns := Iff.rfl

theorem mem_serving_of_lookup {e : HostRoutes} (he : inner.lookup h = some e) :
    (h, n, c) ∈ serving inner ↔ e.clientName = n ∧ c ∈ e.conns := by
  simp [mem_serving, he]

theorem holds_iff_serving : t.Holds c ↔ ∃ h n, (h, n, c) ∈ serving t.inner := by
  rw [holds_iff]
  constructor
  · rintro ⟨h, e, he, hc⟩
    exact ⟨h, e.clientName, e, he, rfl, hc⟩
  · rintro ⟨h, n, e, he, -, hc⟩
    exact ⟨h, e, he, hc⟩

theorem serving_empty : serving ∅ = ∅ := by
  ext ⟨h, n, c⟩
  simp [mem_serving]

/-- `removeConn` ends the leases of the connection with that stable id. -/
theorem serving_removeConn (hsole : ∀ x ∈ serving t.inner, x.2.2.stableId = c.stableId → x.2.2 = c) :
    serving (t.removeConn c.stableId).inner = Leases.release (serving t.inner) c := by
  ext ⟨h, n, d⟩
  constructor
  · rintro ⟨e, he, hn, hd⟩
    obtain ⟨e₀, he₀, -, rfl⟩ := lookup_removeConn.mp he
    obtain ⟨hd, hid⟩ := List.mem_filter.mp hd
    refine ⟨⟨e₀, he₀, hn, hd⟩, ?_⟩
    rintro rfl
    simp at hid
  · rintro ⟨⟨e, he, hn, hd⟩, hne⟩
    have hid : d.stableId ≠ c.stableId := fun hs => hne (hsole (h, n, d) ⟨e, he, hn, hd⟩ hs)
    have hmem : d ∈ e.conns.filter fun c' => c'.stableId ≠ c.stableId :=
      List.mem_filter.mpr ⟨hd, by simpa using hid⟩
    exact ⟨_, lookup_removeConn.mpr ⟨e, he, List.ne_nil_of_mem hmem, rfl⟩, hn, hmem⟩

/-- `kick` ends the leases in the name of the client. -/
theorem serving_kick : serving (t.kick n).2.inner = Leases.revoke (serving t.inner) n := by
  ext ⟨h, m, d⟩
  constructor
  · rintro ⟨e, he, hm, hd⟩
    obtain ⟨he₀, hne⟩ := lookup_kick.mp he
    exact ⟨⟨e, he₀, hm, hd⟩, fun hmn => hne (hm.trans hmn)⟩
  · rintro ⟨⟨e, he, hm, hd⟩, hne⟩
    exact ⟨e, lookup_kick.mpr ⟨he, fun hn => hne (hm.symm.trans hn)⟩, hm, hd⟩

/-- `kick` returns the connections that lose a lease. -/
theorem mem_kick (hinj : ∀ x ∈ serving t.inner, ∀ y ∈ serving t.inner,
      x.2.2.stableId = y.2.2.stableId → x.2.2 = y.2.2) :
    c ∈ (t.kick n).1 ↔ c ∈ Leases.revoked (serving t.inner) n := by
  have hmem : ∀ d, d ∈ (t.inner.entries.flatMap fun e => if e.2.clientName = n then e.2.conns else []) ↔
      ∃ h, (h, n, d) ∈ serving t.inner := fun d => mem_conns_of_client
  rw [kick]
  refine (AssocMap.mem_dedupOn_of_inj ?_).trans (hmem c)
  intro x hx y hy hxy
  obtain ⟨hx', hx⟩ := (hmem x).mp hx
  obtain ⟨hy', hy⟩ := (hmem y).mp hy
  exact hinj _ hx _ hy hxy

/-- `lookup` changes no lease. -/
theorem serving_lookup {isOpen : Connection → Bool} {host : Text} :
    serving (t.lookup isOpen host).2.inner = serving t.inner := by
  ext ⟨h, n, c⟩
  obtain ⟨cursor, hc⟩ := lookup_lookup t isOpen host h
  simp only [mem_serving, hc, Option.map_eq_some_iff]
  constructor
  · rintro ⟨_, ⟨e, he, rfl⟩, hn, hm⟩
    exact ⟨e, he, hn, hm⟩
  · rintro ⟨e, he, hn, hm⟩
    exact ⟨_, ⟨e, he, rfl⟩, hn, hm⟩

/-- In the leases of the table, the stable id of `c` is only that of `c`, serving `n`. -/
def Sole (inner : AssocMap Text HostRoutes) (n : Text) (c : Connection) : Prop :=
  ∀ x ∈ serving inner, x.2.2.stableId = c.stableId → x.2.2 = c ∧ x.2.1 = n

/-- One pass of the loop of `install` assigns one host. -/
theorem serving_give (h : Text) (mode : TlsMode) (b : Balance) (hsole : Sole inner n c) :
    let given := ((inner.lookup h).getD (.vacant n mode)).give n mode b c
    serving (AList.insert h given.1 inner) =
        Leases.assign (serving inner) {h} n (b = .roundRobin) c ∧
      ∀ d, d ∈ given.2 ↔ d ≠ c ∧ d ∈ Leases.displaced (serving inner) {h} n (b = .roundRobin) := by
  intro given
  -- the entry the loop works on has the leases of the host, whether or not it existed
  obtain ⟨e, hgiven, hold⟩ : ∃ e : HostRoutes, given = e.give n mode b c ∧
      ∀ p d, (h, p, d) ∈ serving inner ↔ e.clientName = p ∧ d ∈ e.conns := by
    cases he : inner.lookup h with
    | none => exact ⟨.vacant n mode, by simp [given, he], by simp [mem_serving, he, HostRoutes.vacant]⟩
    | some e => exact ⟨e, by simp [given, he], fun p d => mem_serving_of_lookup he⟩
  have hsole' : ∀ d ∈ e.conns, d.stableId = c.stableId → d = c ∧ e.clientName = n :=
    fun d hd hid => hsole (h, e.clientName, d) ((hold _ _).mpr ⟨rfl, hd⟩) hid
  rw [hgiven]
  constructor
  · ext ⟨k, p, d⟩
    rw [mem_serving, AssocMap.lookup_insert_eq_ite, Leases.mem_assign]
    by_cases hk : k = h
    · subst hk
      simp only [if_true, Option.some.injEq, exists_eq_left', HostRoutes.give_clientName,
        HostRoutes.mem_give_iff fun d hd hid => (hsole' d hd hid).1, Set.mem_singleton_iff, true_and,
        not_true_eq_false, false_and, or_false, hold]
      constructor
      · rintro ⟨rfl, rfl | ⟨hb, hn, hd⟩⟩
        · exact ⟨rfl, .inl rfl⟩
        · exact ⟨rfl, .inr ⟨hb, hn, hd⟩⟩
      · rintro ⟨rfl, rfl | ⟨hb, hn, hd⟩⟩
        · exact ⟨rfl, .inl rfl⟩
        · exact ⟨rfl, .inr ⟨hb, hn, hd⟩⟩
    · simp [hk, mem_serving]
  · intro d
    rw [HostRoutes.mem_displaced_give_iff hsole']
    constructor
    · rintro ⟨hne, hd, hb⟩
      exact ⟨hne, h, rfl, e.clientName, (hold _ _).mpr ⟨rfl, hd⟩, hb⟩
    · rintro ⟨hne, k, hk, p, hT, hb⟩
      obtain rfl := Set.mem_singleton_iff.mp hk
      obtain ⟨rfl, hd⟩ := (hold _ _).mp hT
      exact ⟨hne, hd, hb⟩

/-- The loop of `install` assigns its hosts, and displaces those who lose one. -/
theorem serving_installLoop {b : Balance} :
    ∀ (hosts : List (Text × TlsMode)) (inner : AssocMap Text HostRoutes) (displaced : List Connection),
      Sole inner n c →
      serving (installLoop n b c hosts inner displaced).2 =
          Leases.assign (serving inner) {h | h ∈ hosts.map Prod.fst} n (b = .roundRobin) c ∧
        ∀ d, d ∈ (installLoop n b c hosts inner displaced).1 ↔ d ∈ displaced ∨ d ≠ c ∧
          d ∈ Leases.displaced (serving inner) {h | h ∈ hosts.map Prod.fst} n (b = .roundRobin)
  | [], inner, displaced, _ => by
      constructor
      · ext ⟨h, p, d⟩
        simp [installLoop, Leases.mem_assign]
      · simp [installLoop, Leases.displaced]
  | (host, mode) :: hosts, inner, displaced, hsole => by
      obtain ⟨hassign, hdis⟩ := serving_give host mode b hsole
      set given := ((inner.lookup host).getD (.vacant n mode)).give n mode b c
      have hsole' : Sole (AList.insert host given.1 inner) n c := by
        rintro ⟨k, p, d⟩ hx hid
        rw [hassign] at hx
        rcases Leases.of_mem_assign hx with ⟨-, rfl, rfl⟩ | hT
        · exact ⟨rfl, rfl⟩
        · exact hsole _ hT hid
      obtain ⟨ih₁, ih₂⟩ := serving_installLoop hosts _ (displaced ++ given.2) hsole'
      have hK : {h | h ∈ ((host, mode) :: hosts).map Prod.fst} =
          ({host} ∪ {h | h ∈ hosts.map Prod.fst} : Set Text) := by
        ext k
        simp
      rw [installLoop, hK]
      constructor
      · rw [ih₁, hassign, Leases.assign_assign]
      · intro d
        rw [ih₂, hassign, List.mem_append, hdis, or_assoc, ← and_or_left]
        exact or_congr_right (and_congr_right fun hd => (Leases.mem_displaced_union hd).symm)

/-- `install` assigns the hosts of a grant to a connection that is new to the table, and
returns exactly those who lose a host by it. -/
theorem serving_install {g : ClientGrant}
    (hfresh : ∀ x ∈ serving t.inner, x.2.2.stableId ≠ c.stableId) :
    serving (t.install g.hostnames g.clientName g.balance c).2.inner =
        Leases.assign (serving t.inner) {h | h ∈ g.hosts} g.clientName (g.balance = .roundRobin) c ∧
      ∀ d, d ∈ (t.install g.hostnames g.clientName g.balance c).1 ↔
        d ∈ Leases.displaced (serving t.inner) {h | h ∈ g.hosts} g.clientName
          (g.balance = .roundRobin) := by
  have hsole : Sole t.inner g.clientName c := fun x hx hid => absurd hid (hfresh x hx)
  obtain ⟨h₁, h₂⟩ := serving_installLoop (b := g.balance) g.hostnames t.inner [] hsole
  have hne : ∀ d, d ∈ Leases.displaced (serving t.inner) {h | h ∈ g.hosts} g.clientName
      (g.balance = .roundRobin) → d ≠ c := by
    rintro d ⟨k, -, p, hT, -⟩ rfl
    exact hfresh _ hT rfl
  rw [install]
  split_ifs with hnil
  · constructor
    · ext ⟨h, p, d⟩
      simp [ClientGrant.hosts, hnil, Leases.mem_assign]
    · simp [ClientGrant.hosts, hnil, Leases.displaced]
  · refine ⟨h₁, fun d => (h₂ d).trans ?_⟩
    simp only [List.not_mem_nil, false_or]
    exact ⟨fun hd => hd.2, fun hd => ⟨hne d hd, hd⟩⟩

end RoutingTable

end Tuyau
