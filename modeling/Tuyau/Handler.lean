import Tuyau.Backend
import Tuyau.Routes

/-! # The handler of one tunnel connection

`handle_incoming` as a machine of its own.  A `Phase` is a place where the handler waits or is
about to act on shared state, an `Event` is what it finds there, and `transition` gives the next
phase together with the `Effect` on the server, if there is one.  Every path of the source is
here: the stream that never comes, the Hello that is late, undecodable or missing, the backend
that refuses or does not answer, the peer that went away meanwhile, the Welcome that cannot be
sent, and the two ways a tunnel ends.

Between two phases any other handler may act, and any connection may close; that is the business
of the server.  Here `transition_effect` says from which phase to which each effect leads, and
`Passed` what the events so far tell about the phase. -/

namespace Tuyau

open AsciiText

/-- Why the server closes a connection. -/
inductive CloseCause where
  | helloTimeout
  | rejected
  | serverShutdown
  | replacedBy (new : Connection)
  | revoked (clientName : Text)
deriving DecidableEq

/-- The causes that another connection or the operator brings about. -/
def CloseCause.evicts : CloseCause → Bool
  | .replacedBy _ => true
  | .revoked _ => true
  | _ => false

/-- Where a handler stands. -/
inductive Phase where
  | acceptBi
  | awaitHello
  | admitting (hello : Hello)
  | granted (grant : ClientGrant)
  | installing (grant : ClientGrant)
  | welcoming (grant : ClientGrant)
  | registering (grant : ClientGrant)
  | tunnel (grant : ClientGrant)
  | cleaning (grant : ClientGrant)
  | unregistering (grant : ClientGrant)
  | abandoning (grant : ClientGrant)
  | rejecting (reason : Text)
  | lingering
  | done
deriving DecidableEq

/-- What a handler finds at its next step. -/
inductive Event where
  | streamOpened
  | streamFailed
  | streamTimeout
  | hello (hello : Hello)
  | helloUndecodable
  | helloEof
  | helloTimeout
  | admitted (answer : Option ClientGrant)
  | admitTimeout
  | closeCheck (closed : Bool)
  | install
  | welcomeSent
  | welcomeFailed
  | register
  | cancelled
  | closed
  | removeConn
  | unregister
  | rejectSent
  | rejectFailed
  | lingered
deriving DecidableEq

/-- What a handler does to the server. -/
inductive Effect where
  | none
  | respond (response : HelloResponse)
  | install (grant : ClientGrant)
  | register (grant : ClientGrant)
  | removeConn
  | unregister
  | close (cause : CloseCause)
deriving DecidableEq

/-- One step of a handler. -/
def transition : Phase → Event → Option (Phase × Effect)
  | .acceptBi, .streamOpened => some (.awaitHello, .none)
  | .acceptBi, .streamFailed => some (.done, .none)
  | .acceptBi, .streamTimeout => some (.done, .close .helloTimeout)
  | .awaitHello, .hello hello => some (.admitting hello, .none)
  | .awaitHello, .helloUndecodable => some (.rejecting "protocol error".toList, .none)
  | .awaitHello, .helloEof => some (.done, .none)
  | .awaitHello, .helloTimeout => some (.rejecting "protocol error".toList, .none)
  | .admitting _, .admitted (some grant) => some (.granted grant, .none)
  | .admitting _, .admitted none => some (.rejecting "invalid token".toList, .none)
  | .admitting _, .admitTimeout => some (.rejecting "authorization timeout".toList, .none)
  | .granted _, .closeCheck true => some (.done, .none)
  | .granted grant, .closeCheck false => some (.installing grant, .none)
  | .installing grant, .install => some (.welcoming grant, .install grant)
  | .welcoming grant, .welcomeSent => some (.registering grant, .respond .welcome)
  | .welcoming grant, .welcomeFailed => some (.abandoning grant, .none)
  | .registering grant, .register => some (.tunnel grant, .register grant)
  | .tunnel grant, .cancelled => some (.cleaning grant, .close .serverShutdown)
  | .tunnel grant, .closed => some (.cleaning grant, .none)
  | .cleaning grant, .removeConn => some (.unregistering grant, .removeConn)
  | .unregistering _, .unregister => some (.done, .unregister)
  | .abandoning _, .removeConn => some (.done, .removeConn)
  | .rejecting reason, .rejectSent => some (.lingering, .respond (.reject reason))
  | .rejecting _, .rejectFailed => some (.lingering, .none)
  | .lingering, .lingered => some (.done, .close .rejected)
  | _, _ => none

/-- The grant of a handler between `install` and `remove_conn`. -/
def Phase.routed : Phase → Option ClientGrant
  | .welcoming g | .registering g | .tunnel g | .cleaning g | .abandoning g => some g
  | _ => none

/-- The grant of a handler between `register` and `unregister`. -/
def Phase.registered : Phase → Option ClientGrant
  | .tunnel g | .cleaning g | .unregistering g => some g
  | _ => none

/-- The handler has left the wait that only ends when the connection is closed. -/
def Phase.afterClose : Phase → Bool
  | .cleaning _ | .unregistering _ => true
  | _ => false

/-- **The effects of a handler**, each with the phases before and after it. -/
theorem transition_effect {ph ph' : Phase} {ev : Event} {eff : Effect}
    (h : transition ph ev = some (ph', eff)) :
    match eff with
    | .install g => ph = .installing g ∧ ph' = .welcoming g ∧ ev = .install
    | .register g => ph = .registering g ∧ ph' = .tunnel g
    | .removeConn =>
        ev = .removeConn ∧ ∃ g, ph = .cleaning g ∧ ph' = .unregistering g ∨
          ph = .abandoning g ∧ ph' = .done
    | .unregister => ∃ g, ph = .unregistering g ∧ ph' = .done
    | .close cause => ph'.routed = ph.routed ∧ ph'.registered = ph.registered ∧ cause.evicts = false
    | .respond response => ph'.routed = ph.routed ∧ ph'.registered = ph.registered ∧
        ph'.afterClose = false ∧ (response = .welcome → ev = .welcomeSent)
    | .none => ph'.routed = ph.routed ∧ ph'.registered = ph.registered ∧
        (ph'.afterClose = true → ev = .closed) := by
  unfold transition at h
  split at h
  all_goals first
    | (cases h; simp [Phase.routed, Phase.registered, Phase.afterClose, CloseCause.evicts])
    | cases h

/-! ### What the events so far tell about the phase -/

/-- The grant a handler works with. -/
def Phase.grant : Phase → Option ClientGrant
  | .granted g | .installing g | .welcoming g | .registering g | .tunnel g | .cleaning g
  | .unregistering g | .abandoning g => some g
  | _ => none

/-- The handler has passed `install`, or is finished. -/
def Phase.pastInstall : Phase → Bool
  | .welcoming _ | .registering _ | .tunnel _ | .cleaning _ | .unregistering _ | .abandoning _
  | .done => true
  | _ => false

theorem Phase.grant_of_routed {ph : Phase} {g : ClientGrant} (h : ph.routed = some g) :
    ph.grant = some g := by
  cases ph <;> simp_all [Phase.routed, Phase.grant]

theorem Phase.grant_of_registered {ph : Phase} {g : ClientGrant} (h : ph.registered = some g) :
    ph.grant = some g := by
  cases ph <;> simp_all [Phase.registered, Phase.grant]

/-- The phase `ph` fits the events `evs` that led to it. -/
structure Passed (evs : List Event) (ph : Phase) : Prop where
  heard : ∀ x, ph = .admitting x → .hello x ∈ evs
  admitted : ∀ g, ph.grant = some g → .admitted (some g) ∈ evs
  admittedOnce : ∀ g, .admitted (some g) ∈ evs → ph.grant = some g ∨ ph = .done
  installed : ph.routed.isSome → .install ∈ evs
  installedOnce : .install ∈ evs → ph.pastInstall = true
  welcomed : .welcomeSent ∈ evs → .removeConn ∉ evs → ph.routed.isSome

theorem passed_start : Passed [] .acceptBi := by
  constructor <;> simp [Phase.grant, Phase.routed]

/-- What a step does to the grant and the routes of a handler, whatever its effect. -/
structure Moves (ph : Phase) (ev : Event) (ph' : Phase) : Prop where
  /-- The grant comes from the backend and is kept to the end. -/
  grant : ph' = .done ∨ ph'.grant = ph.grant ∧ (∀ g, ev ≠ .admitted (some g)) ∨
    ∃ g, ev = .admitted (some g) ∧ ph'.grant = some g ∧ ph.grant = none ∧ ph ≠ .done
  admitting : ∀ x, ph' = .admitting x → ev = .hello x
  /-- Routes come with `install` and go with `remove_conn`. -/
  routed : ph'.routed.isSome → ev = .install ∨ ph.routed.isSome
  routedOn : ∀ g, ph.routed = some g → ev ≠ .removeConn → ph'.routed = some g
  welcomed : ev = .welcomeSent → ph'.routed.isSome
  /-- A handler installs once. -/
  pastInstall : ph.pastInstall = true → ph'.pastInstall = true
  installing : ev = .install → ph'.pastInstall = true

theorem moves_of_transition {ph ph' : Phase} {ev : Event} {eff : Effect}
    (h : transition ph ev = some (ph', eff)) : Moves ph ev ph' := by
  unfold transition at h
  split at h
  all_goals first
    | (cases h; constructor <;> simp [Phase.grant, Phase.routed, Phase.pastInstall])
    | cases h

theorem passed_step {evs : List Event} {ph ph' : Phase} {ev : Event} {eff : Effect}
    (h : Passed evs ph) (hstep : transition ph ev = some (ph', eff)) : Passed (evs ++ [ev]) ph' where
  heard x hx := by simp [(moves_of_transition hstep).admitting x hx]
  admitted g hg := by
    rcases (moves_of_transition hstep).grant with rfl | ⟨hsame, -⟩ | ⟨g', rfl, hg', -⟩
    · cases hg
    · exact List.mem_append_left _ (h.admitted g (hsame ▸ hg))
    · rw [hg'] at hg
      simp [Option.some.inj hg]
  admittedOnce g hg := by
    rcases (moves_of_transition hstep).grant with rfl | ⟨hsame, hev⟩ | ⟨g', rfl, hg', hnone, hdone⟩
    · exact .inr rfl
    · have hin : .admitted (some g) ∈ evs := by simpa [(hev g).symm] using hg
      rcases h.admittedOnce g hin with hgr | rfl
      · exact .inl (hsame.trans hgr)
      · cases hstep
    · rcases List.mem_append.mp hg with hin | hin
      · rcases h.admittedOnce g hin with hgr | hd
        · rw [hnone] at hgr
          cases hgr
        · exact absurd hd hdone
      · obtain rfl : g = g' := by simpa using hin
        exact .inl hg'
  installed hr := by
    rcases (moves_of_transition hstep).routed hr with rfl | hr
    · simp
    · exact List.mem_append_left _ (h.installed hr)
  installedOnce hi := by
    rcases List.mem_append.mp hi with hi | hi
    · exact (moves_of_transition hstep).pastInstall (h.installedOnce hi)
    · exact (moves_of_transition hstep).installing (List.mem_singleton.mp hi).symm
  welcomed hw hr := by
    simp only [List.mem_append, List.mem_singleton, not_or] at hw hr
    rcases hw with hw | hw
    · obtain ⟨g, hg⟩ := Option.isSome_iff_exists.mp (h.welcomed hw hr.1)
      rw [(moves_of_transition hstep).routedOn g hg (Ne.symm hr.2)]
      rfl
    · exact (moves_of_transition hstep).welcomed hw.symm

end Tuyau
