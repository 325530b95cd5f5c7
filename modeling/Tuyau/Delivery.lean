import Tuyau.Tunnelled

/-! # What a passthrough connection delivers

Both directions of a connection that crosses the tunnel are chains of two copies, so that the results about
relays hold of them in every run.  `tunnelled_safe` is what is never violated, whatever breaks and whoever
gives up, and `tunnelled_delivers` is what is reached in a direction in which nothing breaks and whose receiver
reads, whatever happens in the other: the copies of one direction do not wait for those of the other, and a
failure of one does not end the other. -/

namespace Tuyau

open AsciiText Relay

namespace Tunnelled

variable {cbor : Cbor DataStreamHeader} {peer : SocketAddr} {ingress : Text → Option Text}
  {s s' : State} {a : Action} {actions later : List Action}

/-! ### A run -/

/-- A ClientHello for `a`. -/
def helloForA : Bytes :=
  [0x16, 3, 1, 0, 57, 1, 0, 0, 53, 3, 3] ++ List.replicate 32 0 ++
    [0, 0, 2, 0, 0, 1, 0, 0, 10, 0, 0, 0, 6, 0, 4, 0, 0, 1, 97]

/-- One step of a tunnel whose client has one service. -/
def oneStep : State → Action → Option State :=
  step oneCbor (.v4 192 0 2 1 4433) fun _ => some ['l']

/-- The peer sends a ClientHello and a byte, and ends; both sides come to copy. -/
def comesToCopy : List Action :=
  [.send (helloForA ++ [5]), .close, .readHello, .route (some .passthrough), .sendHeader 2, .sendHeader 56,
    .acceptBi, .connect true]

/-- Every byte is copied, and the end, while the way back breaks and the service is slow. -/
def copiesAll : List Action :=
  [.up (.read 62), .up (.read 1), .up .eof, .up (.write 63), .up .flush, .inbound (.read 60), .cut .reply,
    .inbound (.write 40), .hold .toService true, .inbound (.read 3), .inbound .eof, .serve 40,
    .hold .toService false, .inbound (.write 23), .inbound .flush]

/-! ### Safety -/

/-- Every step keeps both directions sound. -/
theorem sound_step (hi : Inv cbor peer ingress s) (h : step cbor peer ingress s a = some s')
    (hs : (s.forth cbor).Sound ∧ s.back.Sound) : (s'.forth cbor).Sound ∧ s'.back.Sound := by
  obtain ⟨-, hout⟩ := spec_step hi h
  cases hout with
  | moves forth back _ _ =>
      exact ⟨Chain.sound_run copyCapacity _ forth hs.1, Chain.sound_run copyCapacity _ back hs.2⟩
  | listenerDropped t forth back _ dropped =>
      subst dropped
      rw [← forth, ← back] at hs
      -- the first copy is dropped, and of the way back the second, with what it would have read
      exact ⟨Chain.sound_run copyCapacity [.abort 0] rfl hs.1,
        Chain.sound_run copyCapacity [.abort 1, .cut 1] rfl hs.2⟩
  | clientDropped _ dropped =>
      subst dropped
      exact ⟨Chain.sound_run copyCapacity [.abort 1, .cut 1] rfl hs.1,
        Chain.sound_run copyCapacity [.abort 0] rfl hs.2⟩

theorem sound_run (h : Runs.run (step cbor peer ingress) actions start = some s) :
    (s.forth cbor).Sound ∧ s.back.Sound := by
  have hstart : (start.forth cbor).Sound ∧ start.back.Sound := ⟨Chain.sound_start 2, Chain.sound_start 2⟩
  have hboth : Inv cbor peer ingress s ∧ (s.forth cbor).Sound ∧ s.back.Sound :=
    Runs.run_invariant (P := fun s => Inv cbor peer ingress s ∧ (s.forth cbor).Sound ∧ s.back.Sound)
      ⟨inv_start, hstart⟩ (fun _ _ _ hs h => ⟨(spec_step hs.1 h).1, sound_step hs.1 h hs.2⟩) h
  exact hboth.2

/-- **What crosses the tunnel is what was sent.**  In every run, whatever breaks: the local service gets the
bytes of the public peer from the first byte of its ClientHello on, in order, nothing lost between and nothing
added, and the peer gets those of the service; where the end of one arrives at the other, and no copy on the
way ended with an error, all of it has arrived before.  The service gets nothing unless the client has read a
header with the SNI of that ClientHello and the address of the peer, and it is the one that the ingress map
names for this host. -/
theorem tunnelled_safe (h : Runs.run (step cbor peer ingress) actions start = some s) :
    s.toService.written <+: s.pub.raw.written ∧
    s.reply.written <+: s.fromService.written ∧
    (s.toService.fin = true → s.up ≠ .ended false → s.inbound ≠ .ended false →
      s.toService.written = s.pub.raw.written ∧ s.pub.raw.fin = true) ∧
    (s.reply.fin = true → s.outbound ≠ .ended false → s.down ≠ .ended false →
      s.reply.written = s.fromService.written ∧ s.fromService.fin = true) ∧
    (∀ header, s.client.header = some header → s.pub.prefixBytes <+: s.pub.raw.written ∧
      parseSni s.pub.prefixBytes = some header.hostname ∧ header.peerAddr = peer.toText) ∧
    (s.toService.written ≠ [] → ∃ header localAddr, s.client = .forwarding header localAddr ∧
      ingress header.hostname = some localAddr) := by
  have hi := inv_run h
  obtain ⟨hforth, hback⟩ := sound_run h
  refine ⟨?_, ?_, ?_, ?_, ?_, ?_⟩
  · exact hforth.written_isPrefix
  · exact hback.written_isPrefix
  · intro hfin hup hin
    exact Relay.Sound.complete hforth (by simp [Unfailed, State.forth, hup, hin]) hfin
  · intro hfin hout hdown
    exact Relay.Sound.complete hback (by simp [Unfailed, State.back, hout, hdown]) hfin
  · intro header hheader
    have hclient := hi.client
    have hsent : s.header = some header := by
      rw [ClientInv] at hclient
      cases hc : s.client with
      | accepting => simp [hc, Forwarder.header] at hheader
      | dropped => simp [hc, Forwarder.header] at hheader
      | connecting header' =>
          rw [hc] at hclient hheader
          exact hclient.1.trans hheader
      | forwarding header' localAddr =>
          rw [hc] at hclient hheader
          exact hclient.1.trans hheader
    obtain ⟨hsni, haddr, -⟩ := hi.truthful header hsent
    exact ⟨s.pub.replayed.trans s.pub.raw.fifo, hsni, haddr⟩
  · intro hne
    have hclient := hi.client
    rw [ClientInv] at hclient
    cases hc : s.client with
    | accepting =>
        rw [hc] at hclient
        exact absurd hclient.2 hne
    | connecting header =>
        rw [hc] at hclient
        exact absurd hclient.2.2 hne
    | forwarding header localAddr =>
        rw [hc] at hclient
        exact ⟨header, localAddr, rfl, hclient.2.2⟩
    | dropped =>
        rw [hc] at hclient
        exact absurd hclient hne

theorem tunnelled_safe_copied :
    ∃ s, Runs.run oneStep (comesToCopy ++ copiesAll) start = some s ∧
      s.toService.written = helloForA ++ [5] ∧ s.toService.written <+: s.pub.raw.written := by
  have hrun : (Runs.run oneStep (comesToCopy ++ copiesAll) start).any
      (fun s => s.toService.written = helloForA ++ [5]) = true := by
    decide +kernel
  obtain ⟨s, hs, hall⟩ := (Option.any_eq_true _ _).mp hrun
  exact ⟨s, hs, of_decide_eq_true hall, (tunnelled_safe hs).1⟩

/-! ### Delivery -/

/-- A step of a copy on the way to the service. -/
def Action.isForth : Action → Bool
  | up _ => true
  | inbound _ => true
  | _ => false

/-- A step of a copy on the way back. -/
def Action.isBack : Action → Bool
  | outbound _ => true
  | down _ => true
  | _ => false

/-- Once both sides copy, nobody gives up, and a run is one of moves in both directions. -/
theorem run_moves {header : DataStreamHeader} {localAddr : Text} (hi : Inv cbor peer ingress s)
    (hl : s.listener = .piping) (hc : s.client = .forwarding header localAddr)
    (h : Runs.run (step cbor peer ingress) later s = some s') :
    Inv cbor peer ingress s' ∧ s'.listener = .piping ∧ s'.client = .forwarding header localAddr ∧
      Runs.run (Chain.move copyCapacity) (later.flatMap Action.forth) (s.forth cbor) =
        some (s'.forth cbor) ∧
      Runs.run (Chain.move copyCapacity) (later.flatMap Action.back) s.back = some s'.back := by
  induction later generalizing s with
  | nil =>
      cases h
      exact ⟨hi, hl, hc, rfl, rfl⟩
  | cons a later ih =>
      obtain ⟨s₁, h₁, h₂⟩ := Option.bind_eq_some_iff.mp h
      obtain ⟨hi₁, hout⟩ := spec_step hi h₁
      cases hout with
      | moves forth back piping forwarding =>
          obtain ⟨hi', hl', hc', hforth, hback⟩ :=
            ih hi₁ (piping hl) ((forwarding _ _ hc).trans hc) h₂
          exact ⟨hi', hl', hc', Runs.run_append_eq_some.mpr ⟨_, forth, hforth⟩,
            Runs.run_append_eq_some.mpr ⟨_, back, hback⟩⟩
      | listenerDropped _ _ _ piping _ => exact absurd hl piping
      | clientDropped forwarding _ => exact absurd hc (forwarding _ _)

/-- The moves of a run are counted action by action. -/
theorem countP_flatMap {f : Action → List (Move UInt8)} {p : Action → Bool}
    (hf : ∀ a, (f a).countP Move.isHop = if p a then 1 else 0) (later : List Action) :
    (later.flatMap f).countP Move.isHop = later.countP p := by
  induction later with
  | nil => rfl
  | cons a later ih => rw [List.flatMap_cons, List.countP_append, ih, hf, List.countP_cons, add_comm]

theorem countP_forth (a : Action) : a.forth.countP Move.isHop = if a.isForth then 1 else 0 := by
  cases a with
  | hold place full => cases place <;> rfl
  | cut place => cases place <;> rfl
  | _ => rfl

theorem countP_back (a : Action) : a.back.countP Move.isHop = if a.isBack then 1 else 0 := by
  cases a with
  | hold place full => cases place <;> rfl
  | cut place => cases place <;> rfl
  | _ => rfl

theorem harmless_forth (hcut : ∀ place, a = .cut place → place ∉ [.pub, .request, .toService]) :
    ∀ m ∈ a.forth, m.Harmless := by
  cases a with
  | cut place =>
      have := hcut place rfl
      cases place <;> simp [Action.forth] at this ⊢
  | hold place full => cases place <;> simp [Action.forth, Move.Harmless]
  | _ => simp [Action.forth, Move.Harmless]

theorem harmless_back (hcut : ∀ place, a = .cut place → place ∉ [.fromService, .response, .reply]) :
    ∀ m ∈ a.back, m.Harmless := by
  cases a with
  | cut place =>
      have := hcut place rfl
      cases place <;> simp [Action.back] at this ⊢
  | hold place full => cases place <;> simp [Action.back, Move.Harmless]
  | _ => simp [Action.back, Move.Harmless]

/-- A chain of two hops that goes on: its first or its second copy can take a step, or its end is not read, or
one of its links takes nothing although it is empty. -/
theorem goesOn_cases {source : Link UInt8} {first second : Hop UInt8}
    (h : GoesOn copyCapacity source [first, second]) :
    (∃ ev ∈ CopyEvent.plain, (copyStep copyCapacity source first.copy first.out ev).isSome ∨
        (copyStep copyCapacity first.out second.copy second.out ev).isSome) ∨
      second.out.queue ≠ [] ∨ first.out.Starved ∨ second.out.Starved := by
  rcases h with ⟨i, ev, hkind, hev⟩ | hunread | ⟨hop, hhop, hstarved⟩
  · left
    refine ⟨ev, hkind, ?_⟩
    rcases i with _ | _ | i
    · rw [hopAt, Option.isSome_map] at hev
      exact .inl hev
    · rw [hopAt, Option.isSome_map, hopAt, Option.isSome_map] at hev
      exact .inr hev
    · rw [hopAt, Option.isSome_map, hopAt, Option.isSome_map, hopAt] at hev
      cases hev
  · exact .inr (.inl hunread)
  · rw [List.mem_cons, List.mem_singleton] at hhop
    rcases hhop with rfl | rfl
    · exact .inr (.inr (.inl hstarved))
    · exact .inr (.inr (.inr hstarved))

/-- **A direction in which nothing breaks delivers everything**, whatever happens to the other.  When both
sides copy, a direction is whole and its source has ended, then no later run has more than four steps of its
copies for each byte and for the end; and wherever none of them can go on all bytes have arrived, and the end
as well, unless the receiver has not read what has come, or a transport takes nothing although everything was
read from it. -/
theorem tunnelled_delivers {header : DataStreamHeader} {localAddr : Text}
    (h : Runs.run (step cbor peer ingress) actions start = some s) (hl : s.listener = .piping)
    (hc : s.client = .forwarding header localAddr)
    (hlater : Runs.run (step cbor peer ingress) later s = some s') :
    ((s.forth cbor).Whole → s.pub.raw.fin = true →
      (∀ place, .cut place ∈ later → place ∉ [.pub, .request, .toService]) →
      later.countP Action.isForth ≤ 4 * (s.pub.raw.written.length + 1) ∧
      (s'.toService.written = s.pub.raw.written ∧ s'.toService.fin = true ∨
        (∃ ev, (step cbor peer ingress s' (.up ev)).isSome ∨
          (step cbor peer ingress s' (.inbound ev)).isSome) ∨
        s'.toService.queue ≠ [] ∨ s'.request.Starved ∨ s'.toService.Starved)) ∧
    (s.back.Whole → s.fromService.fin = true →
      (∀ place, .cut place ∈ later → place ∉ [.fromService, .response, .reply]) →
      later.countP Action.isBack ≤ 4 * (s.fromService.written.length + 1) ∧
      (s'.reply.written = s.fromService.written ∧ s'.reply.fin = true ∨
        (∃ ev, (step cbor peer ingress s' (.outbound ev)).isSome ∨
          (step cbor peer ingress s' (.down ev)).isSome) ∨
        s'.reply.queue ≠ [] ∨ s'.response.Starved ∨ s'.reply.Starved)) := by
  obtain ⟨hsound, hsound'⟩ := sound_run h
  obtain ⟨hi', hl', hc', hforth, hback⟩ := run_moves (inv_run h) hl hc hlater
  constructor
  · intro hwhole hfin hcut
    have hms : ∀ m ∈ later.flatMap Action.forth, m.Harmless := by
      intro m hm
      obtain ⟨a, ha, hm⟩ := List.mem_flatMap.mp hm
      exact harmless_forth (fun place hplace => hcut place (hplace ▸ ha)) m hm
    obtain ⟨hcount, hdone⟩ := Chain.delivers (by decide) hsound hwhole hfin hms hforth
    rw [countP_flatMap countP_forth] at hcount
    refine ⟨hcount, ?_⟩
    rcases hdone with hdone | hmore
    · exact .inl hdone
    · right
      have hpiping := hi'.listener
      rw [ListenerInv, hl'] at hpiping
      have hclient := hi'.client
      rw [ClientInv, hc'] at hclient
      rcases goesOn_cases hmore with ⟨ev, hkind, hup | hin⟩ | hunread | hrequest | hservice
      · left
        dsimp only at hup
        rw [copyStep_skip_dst hpiping.2.length_le, Option.isSome_map] at hup
        obtain ⟨ev', hev'⟩ := ReplayedLink.exists_copyStep hup hkind
        exact ⟨ev', .inl (by rw [step, if_pos hl', Option.isSome_map]; exact hev')⟩
      · left
        dsimp only at hin
        rw [copyStep_skip_src hclient.2.1, Option.isSome_map] at hin
        exact ⟨ev, .inr (by rw [step, hc']; exact Option.isSome_map.trans hin)⟩
      · exact .inr (.inl hunread)
      · -- what is read of the stream besides the header is all that is read of it
        have hqueue := s'.request.queue_skip hclient.2.1
        exact .inr (.inr (.inl ⟨hqueue ▸ hrequest.1, hrequest.2⟩))
      · exact .inr (.inr (.inr hservice))
  · intro hwhole hfin hcut
    have hms : ∀ m ∈ later.flatMap Action.back, m.Harmless := by
      intro m hm
      obtain ⟨a, ha, hm⟩ := List.mem_flatMap.mp hm
      exact harmless_back (fun place hplace => hcut place (hplace ▸ ha)) m hm
    obtain ⟨hcount, hdone⟩ := Chain.delivers (by decide) hsound' hwhole hfin hms hback
    rw [countP_flatMap countP_back] at hcount
    refine ⟨hcount, ?_⟩
    rcases hdone with hdone | hmore
    · exact .inl hdone
    · right
      rcases goesOn_cases hmore with ⟨ev, -, hout | hdown⟩ | hstalled
      · exact .inl ⟨ev, .inl (by rw [step, hc']; exact Option.isSome_map.trans hout)⟩
      · exact .inl ⟨ev, .inr (by rw [step, if_pos hl', Option.isSome_map]; exact hdown)⟩
      · exact .inr hstalled

/-- Both sides copy, and nothing has happened yet. -/
def State.justCopying (s : State) : Bool :=
  s.listener = .piping && s.client = .forwarding oneHeader ['l'] && s.pub.raw.fin &&
    !s.pub.raw.broken && !s.request.broken && !s.toService.broken &&
    match s.up, s.inbound with
    | .running _, .running _ => true
    | _, _ => false

theorem tunnelled_delivers_copied :
    ∃ s s', Runs.run oneStep comesToCopy start = some s ∧ Runs.run oneStep copiesAll s = some s' ∧
      copiesAll.countP Action.isForth ≤ 4 * (s.pub.raw.written.length + 1) ∧
      (s'.toService.written = s.pub.raw.written ∧ s'.toService.fin = true ∨
        (∃ ev, (oneStep s' (.up ev)).isSome ∨ (oneStep s' (.inbound ev)).isSome) ∨
        s'.toService.queue ≠ [] ∨ s'.request.Starved ∨ s'.toService.Starved) := by
  have hrun : (Runs.run oneStep comesToCopy start).any (fun s => s.justCopying &&
      (Runs.run oneStep copiesAll s).isSome) = true := by
    decide +kernel
  obtain ⟨s, hs, hcopying⟩ := (Option.any_eq_true _ _).mp hrun
  rw [Bool.and_eq_true] at hcopying
  obtain ⟨hcopying, hlater⟩ := hcopying
  obtain ⟨s', hs'⟩ := Option.isSome_iff_exists.mp hlater
  simp only [State.justCopying, Bool.and_eq_true, decide_eq_true_eq, Bool.not_eq_true'] at hcopying
  obtain ⟨⟨⟨⟨⟨⟨hl, hc⟩, hfin⟩, hpub⟩, hrequest⟩, hservice⟩, hcopies⟩ := hcopying
  have hwhole : (s.forth oneCbor).Whole := by
    refine ⟨⟨hpub, ?_⟩, ?_⟩
    · simp [State.forth, hrequest, hservice]
    · rcases hup : s.up with b | ok <;> rcases hin : s.inbound with b' | ok' <;>
        simp_all [State.forth, Unfailed]
  exact ⟨s, s', hs, hs', (tunnelled_delivers hs hl hc hs').1 hwhole hfin (by simp [copiesAll])⟩

end Tunnelled

end Tuyau
