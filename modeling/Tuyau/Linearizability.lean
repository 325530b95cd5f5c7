import Tuyau.DynamicMode
import Tuyau.Lookups
import Tuyau.Snapshots

/-! # The table's questions, section by section

`is_terminated` and `lookup` do not read the table at one moment: the set of terminated hosts and the
map of tunnels are locked separately, one after the other, while the upstreams and the tunnel
hostnames of the configuration never change and need no lock.  `isTerminatedSections` and
`lookupSections` are the two questions as queries in the sense of `Snapshots`, one section for each
lock taken; alone on a table they are `isTerminated` and `lookup` (`isTerminatedSections_alone`,
`lookupSections_alone`).

A host can be seen half-moved only where a wildcard upstream stands behind it.  If the host has an
upstream of its own, is a hostname of the configuration, or has no wildcard upstream (`FixedRoute`),
then both questions answer as on one table that existed while they ran; in every other case some
calls between the sections produce an answer that no table ever gave (`linearizable_iff`). -/

namespace Tuyau

open AsciiText Snapshots

namespace RoutingTable

variable {cfg : ServerConfig} {t : RoutingTable} {isOpen : Connection → Bool} {h name : Text}

/-! ### The questions in sections -/

/-- The next open tunnel of the entry of a host. -/
def tunnelOf (t : RoutingTable) (isOpen : Connection → Bool) (host : Text) : Option Route :=
  (t.inner.lookup host).bind fun entry =>
    if hn : 0 < entry.conns.length then
      (CyclicScan.scan isOpen entry.conns hn entry.conns.length entry.cursor).1.map fun conn =>
        .tunnel ⟨entry.clientName, entry.tlsMode, conn⟩
    else none

/-- A lookup is an upstream or else a tunnel. -/
theorem lookup_eq_tunnelOf : (t.lookup isOpen h).1 =
    ((t.upstream h).map fun up => .localTo up.target).or (t.tunnelOf isOpen h) := by
  unfold lookup tunnelOf
  cases t.upstream h with
  | some up => rfl
  | none =>
      cases t.inner.lookup h with
      | none => rfl
      | some entry =>
          by_cases hn : 0 < entry.conns.length
          · simp [hn]
          · simp [hn]

/-- `wildcard_upstream` of a lower-case host: one section for the terminated hosts, and one for the
tunnels if no earlier name was found.  The rest of the question goes on with the upstream. -/
def wildcardSections {ρ : Type*} (fixed : RoutingTable) (host : Text)
    (next : Option LocalUpstream → Query RoutingTable ρ) : Query RoutingTable ρ :=
  let wildcard := ((hostPatterns host).drop 1).findSome? fun pattern => fixed.locals.lookup pattern
  if host ∈ fixed.locals ∨ host ∈ fixed.tunnelHosts then next none
  else
    .read fun t =>
      if host ∈ t.terminated then next none
      else .read fun t => if host ∈ t.inner then next none else next wildcard

/-- `is_terminated`, with a section of its own for the terminated hosts. -/
def isTerminatedSections (fixed : RoutingTable) (host : Text) : Query RoutingTable Bool :=
  let host := toAsciiLowercase host
  .read fun t =>
    if host ∈ t.terminated then .done true
    else wildcardSections fixed host fun up => .done (up.any fun up => up.tlsMode.terminates)

/-- `lookup`, which ends with a section that reads the tunnels of the host. -/
def lookupSections (fixed : RoutingTable) (isOpen : Connection → Bool) (host : Text) :
    Query RoutingTable (Option Route) :=
  let lowercase := toAsciiLowercase host
  match fixed.locals.lookup lowercase with
  | some up => .done (some (.localTo up.target))
  | none =>
      wildcardSections fixed lowercase fun
        | some up => .done (some (.localTo up.target))
        | none => .read fun t => .done (t.tunnelOf isOpen host)

/-! ### Alone on a table -/

theorem wildcardSections_alone {ρ : Type*} {next : Option LocalUpstream → Query RoutingTable ρ} :
    (wildcardSections t name next).alone t = (next (t.wildcardUpstream name)).alone t := by
  unfold wildcardSections wildcardUpstream named
  by_cases hfixed : name ∈ t.locals ∨ name ∈ t.tunnelHosts
  · have hnamed : name ∈ t.locals ∨ name ∈ t.tunnelHosts ∨ name ∈ t.terminated ∨ name ∈ t.inner := by
      tauto
    simp [hfixed, hnamed]
  · obtain ⟨hlocal, htunnel⟩ := not_or.mp hfixed
    by_cases hterm : name ∈ t.terminated
    · simp [hlocal, htunnel, hterm]
    · by_cases hinner : name ∈ t.inner
      · simp [hlocal, htunnel, hterm, hinner]
      · simp [hlocal, htunnel, hterm, hinner]

theorem isTerminatedSections_alone : (isTerminatedSections t h).alone t = t.isTerminated h := by
  unfold isTerminatedSections isTerminated
  dsimp only
  rw [Query.alone_read]
  by_cases hterm : toAsciiLowercase h ∈ t.terminated
  · simp [hterm]
  · rw [if_neg hterm, wildcardSections_alone]
    simp [hterm]

theorem lookupSections_alone : (lookupSections t isOpen h).alone t = (t.lookup isOpen h).1 := by
  rw [lookup_eq_tunnelOf]
  unfold lookupSections upstream
  dsimp only
  cases t.locals.lookup (toAsciiLowercase h) with
  | some up => rfl
  | none =>
      rw [wildcardSections_alone]
      cases t.wildcardUpstream (toAsciiLowercase h) with
      | some up => rfl
      | none => rfl

/-! ### Linearizability -/

end RoutingTable

/-- What a route says about the table: the upstream, or the entry that its tunnel is from. -/
def Route.source : Route → UpstreamTarget ⊕ Text × TlsMode
  | .localTo target => .inl target
  | .tunnel entry => .inr (entry.clientName, entry.tlsMode)

namespace RoutingTable

variable {cfg : ServerConfig} {t : RoutingTable} {isOpen : Connection → Bool} {h name : Text}

/-- Whatever is called between its sections, `is_terminated` answers as on one table there was from its
first section to its last. -/
def IsTerminatedLinearizable (t : RoutingTable) (host : Text) : Prop :=
  ∀ gaps : List (List Op), ∃ t' ∈ (isTerminatedSections t host).window call t gaps,
    (isTerminatedSections t host).run call t gaps = t'.isTerminated host

/-- The same of `lookup`, as far as it says where the host goes. -/
def LookupLinearizable (t : RoutingTable) (host : Text) : Prop :=
  ∀ (isOpen : Connection → Bool) (gaps : List (List Op)),
    ∃ t' ∈ (lookupSections t isOpen host).window call t gaps,
      ((lookupSections t isOpen host).run call t gaps).map Route.source =
        (t'.lookup isOpen host).1.map Route.source

/-- A lower-case host whose route no wildcard upstream has a part in: it has an upstream of its own, is
a hostname of the configuration, or has no wildcard upstream. -/
def FixedRoute (t : RoutingTable) (host : Text) : Prop :=
  host ∈ t.locals ∨ host ∈ t.tunnelHosts ∨ ∀ pattern ∈ (hostPatterns host).drop 1, pattern ∉ t.locals

/-! ### Where no wildcard upstream has a part -/

/-- No call changes the upstreams or the hostnames of the configuration. -/
theorem fixed_call (t : RoutingTable) (op : Op) :
    (t.call op).locals = t.locals ∧ (t.call op).tunnelHosts = t.tunnelHosts := by
  by_cases hop : ∃ full, op = .setTerminated full
  · obtain ⟨full, rfl⟩ := hop
    exact ⟨rfl, rfl⟩
  · obtain ⟨inner, hsame⟩ := sameConfig_call (t := t) (fun full hfull => hop ⟨full, hfull⟩)
    rw [hsame]
    exact ⟨rfl, rfl⟩

theorem fixed_after (cfg : ServerConfig) (ops : List Op) :
    (after cfg ops).locals = (fromConfig cfg.hostnames cfg.upstreams).locals ∧
      (after cfg ops).tunnelHosts = (fromConfig cfg.hostnames cfg.upstreams).tunnelHosts := by
  induction ops using List.reverseRecOn with
  | nil => exact ⟨rfl, rfl⟩
  | append_singleton ops op ih =>
      rw [after_concat, (fixed_call _ op).1, (fixed_call _ op).2]
      exact ih

theorem FixedRoute.congr {t t' : RoutingTable} (hlocals : t'.locals = t.locals)
    (htunnel : t'.tunnelHosts = t.tunnelHosts) : t'.FixedRoute name ↔ t.FixedRoute name := by
  unfold FixedRoute
  rw [hlocals, htunnel]

/-- With a fixed route, `wildcard_upstream` finds nothing, and whatever its sections see the question
goes on without an upstream. -/
theorem FixedRoute.wildcardSections {ρ : Type*} {next : Option LocalUpstream → Query RoutingTable ρ}
    {P : Query RoutingTable ρ → Prop} (hfixed : t.FixedRoute name) (hnext : P (next none))
    (hread : ∀ q, (∀ s, P (q s)) → P (.read q)) : P (t.wildcardSections name next) := by
  unfold RoutingTable.wildcardSections
  dsimp only
  split_ifs with hexact
  · exact hnext
  · have hpat := (hfixed.resolve_left fun hl => hexact (.inl hl)).resolve_left
      fun ht => hexact (.inr ht)
    have hwild : (((hostPatterns name).drop 1).findSome? fun pattern => t.locals.lookup pattern) = none :=
      List.findSome?_eq_none_iff.mpr fun pattern hp => AList.lookup_eq_none.mpr (hpat pattern hp)
    rw [hwild]
    apply hread
    intro s
    split_ifs
    · exact hnext
    · apply hread
      intro s
      split_ifs
      · exact hnext
      · exact hnext

theorem FixedRoute.wildcardUpstream_eq_none (hfixed : t.FixedRoute name) :
    t.wildcardUpstream name = none := by
  rw [RoutingTable.wildcardUpstream_eq_none]
  rintro ⟨hnamed, pattern, hp, hin⟩
  rcases hfixed with hlocal | htunnel | hpat
  · exact hnamed (.inl hlocal)
  · exact hnamed (.inr (.inl htunnel))
  · exact hpat pattern hp hin

/-- Then the first section alone decides `is_terminated`. -/
theorem FixedRoute.isTerminatedLinearizable (hfixed : t.FixedRoute (toAsciiLowercase h)) :
    t.IsTerminatedLinearizable h := by
  intro gaps
  refine ⟨t, Query.mem_window_self _ _ _, ?_⟩
  have hanswer : t.isTerminated h = decide (toAsciiLowercase h ∈ t.terminated) := by
    unfold isTerminated
    simp [hfixed.wildcardUpstream_eq_none]
  have hrest : ∀ (s : RoutingTable) (gaps : List (List Op)),
      (t.wildcardSections (toAsciiLowercase h) fun up =>
        .done (up.any fun up => up.tlsMode.terminates)).run call s gaps = false := by
    refine hfixed.wildcardSections (P := fun q => ∀ s gaps, q.run call s gaps = false) ?_ ?_
    · intro s gaps
      rfl
    · intro q hq s gaps
      rw [Query.run_read]
      exact hq s _ _
  rw [hanswer, isTerminatedSections, Query.run_read]
  split_ifs with hterm
  · simp [Query.run, hterm]
  · simp [hrest, hterm]

/-- Then the last section of `lookup` decides, unless the host has an upstream of its own. -/
theorem FixedRoute.lookupLinearizable (hfixed : t.FixedRoute (toAsciiLowercase h)) :
    t.LookupLinearizable h := by
  intro isOpen gaps
  cases hlocal : t.locals.lookup (toAsciiLowercase h) with
  | some up =>
      refine ⟨t, Query.mem_window_self _ _ _, ?_⟩
      simp [lookup_eq_tunnelOf, lookupSections, upstream, hlocal, Query.run]
  | none =>
      have hends : (t.lookupSections isOpen h).EndsIn fun s => s.tunnelOf isOpen h := by
        unfold lookupSections
        dsimp only
        rw [hlocal]
        apply hfixed.wildcardSections
        · exact .last fun s => rfl
        · exact fun q hq => .step hq
      obtain ⟨t', hin, hrun⟩ := Query.exists_mem_window_of_endsIn hends t gaps
      refine ⟨t', hin, ?_⟩
      -- the upstreams are the same in all tables of the window
      have hsame : t'.locals = t.locals ∧ t'.tunnelHosts = t.tunnelHosts :=
        Query.of_mem_window (P := fun s => s.locals = t.locals ∧ s.tunnelHosts = t.tunnelHosts)
          (fun s op hs => ⟨(fixed_call s op).1.trans hs.1, (fixed_call s op).2.trans hs.2⟩)
          ⟨rfl, rfl⟩ hin
      have hfixed' := (FixedRoute.congr hsame.1 hsame.2).mpr hfixed
      have hup : t'.upstream h = none := by
        rw [upstream, hsame.1, hlocal, hfixed'.wildcardUpstream_eq_none]
        rfl
      rw [hrun, lookup_eq_tunnelOf, hup]
      rfl

/-! ### Where a wildcard upstream stands behind a host -/

/-- A client that is granted a host in two spellings. -/
def bothSpellings (h : Text) : ClientGrant :=
  ⟨[], .lastWriteWins, [(toAsciiLowercase h, .terminated), (h, .terminated)]⟩

/-- The entries of both spellings after such a grant, where the table had no tunnels. -/
theorem lookup_install_bothSpellings (hinner : t.inner = ∅) (c : Connection) {x : Text}
    (hx : x = toAsciiLowercase h ∨ x = h) :
    (t.call (.install (bothSpellings h) c)).inner.lookup x = some ⟨[], .terminated, [c], 0⟩ := by
  simp only [call, bothSpellings, install, reduceCtorEq, if_false, installLoop, hinner,
    AssocMap.lookup_insert_eq_ite, AList.lookup_empty]
  by_cases heq : h = toAsciiLowercase h
  · rw [← heq] at hx ⊢
    rcases hx with rfl | rfl <;> simp [HostRoutes.vacant, HostRoutes.give]
  · rcases hx with rfl | rfl
    · simp [HostRoutes.vacant, HostRoutes.give, Ne.symm heq]
    · simp [HostRoutes.vacant, HostRoutes.give, heq]

/-- Both entries are gone when the client is kicked. -/
theorem lookup_kick_bothSpellings (hinner : t.inner = ∅) (c : Connection) {x : Text}
    (hx : x = toAsciiLowercase h ∨ x = h) :
    ((t.call (.install (bothSpellings h) c)).call (.kick [])).inner.lookup x = none := by
  rw [Option.eq_none_iff_forall_ne_some]
  intro e he
  obtain ⟨he, hne⟩ := lookup_kick.mp he
  rw [lookup_install_bothSpellings hinner c hx] at he
  exact hne (by rw [← Option.some.inj he])

/-- Without a fixed route, a host that is neither provisioned nor served is covered by a wildcard. -/
theorem covered_of_not_fixedRoute (hfixed : ¬ t.FixedRoute name) (hterm : name ∉ t.terminated)
    (hinner : t.inner.lookup name = none) : t.Covered name := by
  simp only [FixedRoute, not_or, not_forall, not_not] at hfixed
  obtain ⟨hlocal, htunnel, pattern, hp, hin⟩ := hfixed
  refine ⟨?_, pattern, hp, hin⟩
  rintro (h₁ | h₁ | h₁ | h₁)
  · exact hlocal h₁
  · exact htunnel h₁
  · exact hterm h₁
  · exact AList.lookup_eq_none.mp hinner h₁

/-- A lookup of a covered host finds an upstream. -/
theorem lookup_of_covered (hcov : t.Covered (toAsciiLowercase h)) : (t.lookup isOpen h).1 ≠ none := by
  have hlocal : toAsciiLowercase h ∉ t.locals := fun hl => hcov.1 (.inl hl)
  obtain ⟨up, hup⟩ : ∃ up, t.upstream h = some up := by
    rw [← Option.ne_none_iff_exists', upstream_eq_wildcard hlocal, ne_eq, wildcardUpstream_eq_none,
      not_not]
    exact hcov
  rw [lookup_eq_localTo.mpr ⟨up, hup, rfl⟩]
  exact Option.some_ne_none _

/-- A tunnel comes up and is gone again while a lookup is between its sections: the lookup has left
the wildcard upstream for the tunnel, and finds no tunnel.  No table without a route existed. -/
theorem not_lookupLinearizable (hterm : t.terminated = ∅) (hinner : t.inner = ∅)
    (hfixed : ¬ t.FixedRoute (toAsciiLowercase h)) : ¬ t.LookupLinearizable h := by
  set t₁ := t.call (.install (bothSpellings h) (.nth 0)) with ht₁
  set t₂ := t₁.call (.kick []) with ht₂
  have hexact : toAsciiLowercase h ∉ t.locals := fun hl => hfixed (.inl hl)
  have htunnel : toAsciiLowercase h ∉ t.tunnelHosts := fun ht => hfixed (.inr (.inl ht))
  have hterm₁ : t₁.terminated = ∅ := by
    obtain ⟨inner, hsame⟩ := sameConfig_call (t := t)
      (show ∀ full, Op.install (bothSpellings h) (.nth 0) ≠ .setTerminated full by simp)
    rw [ht₁, hsame]
    exact hterm
  have hin₁ : ∀ x, x = toAsciiLowercase h ∨ x = h →
      t₁.inner.lookup x = some ⟨[], .terminated, [.nth 0], 0⟩ :=
    fun x => lookup_install_bothSpellings hinner (.nth 0)
  have hin₂ : ∀ x, x = toAsciiLowercase h ∨ x = h → t₂.inner.lookup x = none :=
    fun x => lookup_kick_bothSpellings hinner (.nth 0)
  have hnamed : toAsciiLowercase h ∈ t₁.inner := AList.lookup_isSome.mp (by simp [hin₁ _ (.inl rfl)])
  intro hlin
  obtain ⟨s, hs, heq⟩ := hlin (fun _ => true) [[.install (bothSpellings h) (.nth 0)], [.kick []]]
  have hrun : (t.lookupSections (fun _ => true) h).run call t
      [[.install (bothSpellings h) (.nth 0)], [.kick []]] = none := by
    simp [lookupSections, wildcardSections, AList.lookup_eq_none.mpr hexact, hexact, htunnel, hterm,
      Query.run, ← ht₁, ← ht₂, hnamed, tunnelOf, hin₂ _ (.inr rfl)]
  have hwindow : s = t ∨ s = t₁ ∨ s = t₂ := by
    simp [lookupSections, wildcardSections, AList.lookup_eq_none.mpr hexact, hexact, htunnel, hterm,
      Query.window, Query.isDone, states, ← ht₁, ← ht₂, hnamed] at hs
    tauto
  rw [hrun, Option.map_none, eq_comm, Option.map_eq_none_iff] at heq
  rcases hwindow with rfl | rfl | rfl
  · refine lookup_of_covered (covered_of_not_fixedRoute hfixed ?_ ?_) heq
    · simp [hterm]
    · simp [hinner]
  · -- the tunnel is up, and its connection is open
    have hup : t₁.upstream h = none := by
      have hexact₁ : toAsciiLowercase h ∉ t₁.locals := by
        rw [ht₁, (fixed_call _ _).1]
        exact hexact
      rw [upstream_eq_wildcard hexact₁]
      exact if_pos (.inr (.inr (.inr hnamed)))
    have hall := (lookup_eq_none_iff hup (hin₁ h (.inr rfl)) (by simp) (by decide)).mp heq
    exact absurd (hall (.nth 0) (by simp)) (by simp)
  · refine lookup_of_covered (covered_of_not_fixedRoute ?_ ?_ (hin₂ _ (.inl rfl))) heq
    · rw [FixedRoute.congr ((fixed_call _ _).1.trans (fixed_call _ _).1)
        ((fixed_call _ _).2.trans (fixed_call _ _).2)]
      exact hfixed
    · show _ ∉ t₁.terminated
      simp [hterm₁]

/-- **When the table's questions are linearizable**: exactly for the hosts whose route no wildcard
upstream has a part in. -/
theorem linearizable_iff (cfg : ServerConfig) (h : Text) :
    (∀ ops, (after cfg ops).IsTerminatedLinearizable h ∧ (after cfg ops).LookupLinearizable h) ↔
      (fromConfig cfg.hostnames cfg.upstreams).FixedRoute (toAsciiLowercase h) := by
  have hfixed : ∀ ops, (after cfg ops).FixedRoute (toAsciiLowercase h) ↔
      (fromConfig cfg.hostnames cfg.upstreams).FixedRoute (toAsciiLowercase h) :=
    fun ops => FixedRoute.congr (fixed_after cfg ops).1 (fixed_after cfg ops).2
  constructor
  · intro hlin
    by_contra hnot
    have hbare : ¬ (after cfg [.setTerminated []]).FixedRoute (toAsciiLowercase h) := by
      rw [hfixed]
      exact hnot
    exact not_lookupLinearizable rfl rfl hbare (hlin _).2
  · intro hroute ops
    have hops := (hfixed ops).mpr hroute
    exact ⟨hops.isTerminatedLinearizable, hops.lookupLinearizable⟩

/-- Behind a catch-all upstream, a tunnel that comes and goes makes a lookup find nothing, and a host
that is provisioned is found not terminated, although every table there was has a route for the host
and terminates its TLS. -/
theorem not_linearizable_catchAll :
    let t := fromConfig catchAll.hostnames catchAll.upstreams
    let look := t.lookupSections (fun _ => true) ['x']
    let gaps : List (List Op) :=
      [[.install ⟨['a'], .lastWriteWins, [(['x'], .terminated)]⟩ (.nth 0)], [.kick ['a']]]
    let gaps' : List (List Op) := [[.setTerminated [['x']]]]
    (look.run call t gaps = none ∧
      ∀ t' ∈ look.window call t gaps, (t'.lookup (fun _ => true) ['x']).1 ≠ none) ∧
    ((t.isTerminatedSections ['x']).run call t gaps' = false ∧
      ∀ t' ∈ (t.isTerminatedSections ['x']).window call t gaps', t'.isTerminated ['x'] = true) ∧
    ¬ t.LookupLinearizable ['x'] ∧ ¬ t.IsTerminatedLinearizable ['x'] := by
  intro t look gaps gaps'
  have hlook : look.run call t gaps = none ∧
      ∀ t' ∈ look.window call t gaps, (t'.lookup (fun _ => true) ['x']).1 ≠ none := by decide
  have hterm : (t.isTerminatedSections ['x']).run call t gaps' = false ∧
      ∀ t' ∈ (t.isTerminatedSections ['x']).window call t gaps', t'.isTerminated ['x'] = true := by
    decide
  refine ⟨hlook, hterm, ?_, ?_⟩
  · intro hlin
    obtain ⟨t', hin, heq⟩ := hlin (fun _ => true) gaps
    rw [hlook.1, Option.map_none, eq_comm, Option.map_eq_none_iff] at heq
    exact hlook.2 t' hin heq
  · intro hlin
    obtain ⟨t', hin, heq⟩ := hlin gaps'
    rw [hterm.1, hterm.2 t' hin] at heq
    cases heq

end RoutingTable

end Tuyau
