import Mathlib.Data.List.Basic

/-! # Queries that read a changing state in sections

A query over shared state often takes its locks one after another: each locked section reads the
state as it is at that moment and decides what to read next, and between two sections others may
update the state.  `Query σ ρ` is such a query over states `σ` with answers `ρ`; `run` gives its
answer when the updates of `gaps` fall between its sections, and `window` lists the states that
existed from its first section to its last; what every update keeps holds of all of them
(`of_mem_window`).  Run `alone` a query reads one state throughout.

A query is linearizable where its answer is the one it gives alone on some state of its window.
`exists_mem_window_of_endsIn` is the one reason for that used here: whatever the query reads on its
way, its answer is a function of the state its last section reads. -/

namespace Snapshots

variable {σ ρ α : Type*}

/-- A query: an answer, or a section that reads the state and goes on. -/
inductive Query (σ ρ : Type*) where
  | done (answer : ρ)
  | read (next : σ → Query σ ρ)

section

variable (update : σ → α → σ)

/-- The states there are while updates are made one after another. -/
def states (s : σ) : List α → List σ
  | [] => [s]
  | u :: us => s :: states (update s u) us

theorem foldl_mem_states (us : List α) (s : σ) : us.foldl update s ∈ states update s us := by
  induction us generalizing s with
  | nil => exact List.mem_singleton.mpr rfl
  | cons u us ih => exact List.mem_cons_of_mem _ (ih _)

theorem self_mem_states (us : List α) (s : σ) : s ∈ states update s us := by
  cases us with
  | nil => exact List.mem_singleton.mpr rfl
  | cons u us => exact List.mem_cons_self

/-- What every update keeps holds of all states there are. -/
theorem of_mem_states {P : σ → Prop} {update : σ → α → σ} (hP : ∀ s u, P s → P (update s u))
    (us : List α) {s : σ} (hs : P s) : ∀ s' ∈ states update s us, P s' := by
  induction us generalizing s with
  | nil => exact fun s' h => List.mem_singleton.mp h ▸ hs
  | cons u us ih =>
      intro s' h
      rcases List.mem_cons.mp h with rfl | h
      · exact hs
      · exact ih (hP s u hs) s' h

namespace Query

/-- The answer of a query when the updates of `gaps` fall between its sections. -/
def run : Query σ ρ → σ → List (List α) → ρ
  | done answer, _, _ => answer
  | read next, s, [] => run (next s) s []
  | read next, s, us :: gaps => run (next s) (us.foldl update s) gaps

/-- The query has no section left. -/
def isDone : Query σ ρ → Bool
  | done _ => true
  | read _ => false

/-- The states there are from the first section of a query to its last. -/
def window : Query σ ρ → σ → List (List α) → List σ
  | done _, s, _ => [s]
  | read next, s, [] => s :: window (next s) s []
  | read next, s, us :: gaps =>
      if (next s).isDone then [s] else states update s us ++ window (next s) (us.foldl update s) gaps

/-- The answer of a query that reads one state throughout. -/
def alone (q : Query σ ρ) (s : σ) : ρ := run (fun s (_ : Unit) => s) q s []

end Query

end

namespace Query

variable {update : σ → α → σ} {q : Query σ ρ} {f : σ → ρ} {s : σ}

@[simp] theorem alone_done (answer : ρ) : (done answer : Query σ ρ).alone s = answer := rfl

@[simp] theorem alone_read (next : σ → Query σ ρ) : (read next).alone s = (next s).alone s := rfl

/-- A section reads the state, and the updates of the first gap follow. -/
theorem run_read (next : σ → Query σ ρ) (s : σ) (gaps : List (List α)) :
    run update (read next) s gaps = run update (next s) ((gaps.headD []).foldl update s) gaps.tail := by
  cases gaps with
  | nil => rfl
  | cons us gaps => rfl

theorem mem_window_self (q : Query σ ρ) (s : σ) (gaps : List (List α)) : s ∈ window update q s gaps := by
  cases q with
  | done answer => exact List.mem_singleton.mpr rfl
  | read next =>
      cases gaps with
      | nil => exact List.mem_cons_self
      | cons us gaps =>
          rw [window]
          split_ifs
          · exact List.mem_singleton.mpr rfl
          · exact List.mem_append_left _ (self_mem_states update us s)

/-- What every update keeps holds of all states of the window. -/
theorem of_mem_window {P : σ → Prop} (hP : ∀ s u, P s → P (update s u)) {s' : σ} :
    ∀ {q : Query σ ρ} {s : σ} {gaps : List (List α)}, P s → s' ∈ window update q s gaps → P s'
  | done _, s, _, hs, h => List.mem_singleton.mp h ▸ hs
  | read next, s, [], hs, h => by
      rcases List.mem_cons.mp h with rfl | h
      · exact hs
      · exact of_mem_window hP hs h
  | read next, s, us :: gaps, hs, h => by
      rw [window] at h
      split_ifs at h
      · exact List.mem_singleton.mp h ▸ hs
      · rcases List.mem_append.mp h with h | h
        · exact of_mem_states hP us hs s' h
        · exact of_mem_window hP (of_mem_states hP us hs _ (foldl_mem_states update us s)) h

/-- The last section of the query gives its answer, as a function of what it reads. -/
inductive EndsIn (f : σ → ρ) : Query σ ρ → Prop
  | last {next : σ → Query σ ρ} (h : ∀ s, next s = done (f s)) : EndsIn f (read next)
  | step {next : σ → Query σ ρ} (h : ∀ s, EndsIn f (next s)) : EndsIn f (read next)

theorem EndsIn.isDone (h : EndsIn f q) : q.isDone = false := by
  cases h with
  | last _ => rfl
  | step _ => rfl

/-- Such a query answers what its last section sees. -/
theorem exists_mem_window_of_endsIn (h : EndsIn f q) (s : σ) (gaps : List (List α)) :
    ∃ s' ∈ window update q s gaps, run update q s gaps = f s' := by
  induction h generalizing s gaps with
  | @last next h =>
      refine ⟨s, mem_window_self _ _ _, ?_⟩
      rw [run_read, h]
      rfl
  | @step next h ih =>
      cases gaps with
      | nil =>
          obtain ⟨s', hs', hrun⟩ := ih s s []
          exact ⟨s', List.mem_cons_of_mem _ hs', hrun⟩
      | cons us gaps =>
          obtain ⟨s', hs', hrun⟩ := ih s (us.foldl update s) gaps
          refine ⟨s', ?_, hrun⟩
          rw [window, (h s).isDone]
          exact List.mem_append_right _ hs'

end Query

end Snapshots
