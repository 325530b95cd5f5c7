import Mathlib.Data.Set.Basic
import Mathlib.Logic.Function.Basic
import Tuyau.Runs

/-! # Leases on keys

The abstract model of a table that lends keys to members of owners.  A lease `(k, o, m)`
says that member `m` serves key `k` in the name of owner `o`.  Three operations change the
set of leases:

* `assign K o shared m` gives the keys `K` to `m`.  A key that belonged to another owner is
  taken over; a key of `o` itself keeps its other members only when `shared` holds.
* `release m` ends every lease of one member.
* `revoke o` ends every lease of one owner.

Members that lose a lease without asking for it are reported: `displaced` by `assign`,
`revoked` by `revoke`.  A `Ledger` adds to the leases what each member was granted and who
has been reported so far, and `Agrees` says that the leases are exactly what the grants of
the unreported members promise: every lease is covered by a grant of its member and owner,
and a member that was not reported holds every key of its grant.  Acquiring, releasing and
revoking in any order keep it (`agrees_of_move`), which is the whole argument against lost
and stale leases; an implementation only has to show that its steps are these.  Nobody is
given a lease without a grant (`lease_of_move`) or reported who had none to lose
(`reported_of_move`). -/

namespace Leases

variable {κ ω μ : Type*}

/-- The leases: which member serves which key in whose name. -/
abbrev Holdings (κ ω μ : Type*) := Set (κ × ω × μ)

/-- Give the keys `K` to member `m` of owner `o`. -/
def assign (T : Holdings κ ω μ) (K : Set κ) (o : ω) (shared : Prop) (m : μ) : Holdings κ ω μ :=
  {x | x.1 ∈ K ∧ x.2.1 = o ∧ (x.2.2 = m ∨ shared ∧ x ∈ T) ∨ x.1 ∉ K ∧ x ∈ T}

/-- The members that lose a key of `K` when it is assigned to `o`. -/
def displaced (T : Holdings κ ω μ) (K : Set κ) (o : ω) (shared : Prop) : Set μ :=
  {d | ∃ k ∈ K, ∃ p, (k, p, d) ∈ T ∧ (p = o → ¬ shared)}

/-- End every lease of member `m`. -/
def release (T : Holdings κ ω μ) (m : μ) : Holdings κ ω μ := {x | x ∈ T ∧ x.2.2 ≠ m}

/-- End every lease of owner `o`. -/
def revoke (T : Holdings κ ω μ) (o : ω) : Holdings κ ω μ := {x | x ∈ T ∧ x.2.1 ≠ o}

/-- The members that lose a lease when owner `o` is revoked. -/
def revoked (T : Holdings κ ω μ) (o : ω) : Set μ := {d | ∃ k, (k, o, d) ∈ T}

theorem mem_assign {T : Holdings κ ω μ} {K : Set κ} {o p : ω} {shared : Prop} {m d : μ} {k : κ} :
    (k, p, d) ∈ assign T K o shared m ↔
      k ∈ K ∧ p = o ∧ (d = m ∨ shared ∧ (k, p, d) ∈ T) ∨ k ∉ K ∧ (k, p, d) ∈ T := Iff.rfl

/-- The new member serves every key it is given. -/
theorem mem_assign_self {T : Holdings κ ω μ} {K : Set κ} {o : ω} {shared : Prop} {m : μ} {k : κ}
    (hk : k ∈ K) : (k, o, m) ∈ assign T K o shared m := mem_assign.mpr (.inl ⟨hk, rfl, .inl rfl⟩)

/-- Without sharing, the new member serves its keys alone. -/
theorem mem_assign_alone {T : Holdings κ ω μ} {K : Set κ} {o p : ω} {shared : Prop} {m d : μ} {k : κ}
    (hk : k ∈ K) (hs : ¬ shared) : (k, p, d) ∈ assign T K o shared m ↔ p = o ∧ d = m := by
  simp [mem_assign, hk, hs]

/-- A lease that the assignment ends is one of a displaced member. -/
theorem mem_assign_or_displaced {T : Holdings κ ω μ} {K : Set κ} {o p : ω} {shared : Prop} {m d : μ}
    {k : κ} (h : (k, p, d) ∈ T) :
    (k, p, d) ∈ assign T K o shared m ∨ d ∈ displaced T K o shared := by
  by_cases hk : k ∈ K
  · by_cases hs : p = o ∧ shared
    · exact .inl (mem_assign.mpr (.inl ⟨hk, hs.1, .inr ⟨hs.2, h⟩⟩))
    · exact .inr ⟨k, hk, p, h, fun hp hsh => hs ⟨hp, hsh⟩⟩
  · exact .inl (mem_assign.mpr (.inr ⟨hk, h⟩))

/-- Every lease after an assignment is new or was there before. -/
theorem of_mem_assign {T : Holdings κ ω μ} {K : Set κ} {o p : ω} {shared : Prop} {m d : μ} {k : κ}
    (h : (k, p, d) ∈ assign T K o shared m) : k ∈ K ∧ p = o ∧ d = m ∨ (k, p, d) ∈ T := by
  rcases mem_assign.mp h with ⟨hk, hp, hd | ⟨-, hT⟩⟩ | ⟨-, hT⟩
  · exact .inl ⟨hk, hp, hd⟩
  · exact .inr hT
  · exact .inr hT

/-- Assigning keys in two goes is assigning them at once. -/
theorem assign_assign (T : Holdings κ ω μ) (K K' : Set κ) (o : ω) (shared : Prop) (m : μ) :
    assign (assign T K o shared m) K' o shared m = assign T (K ∪ K') o shared m := by
  ext ⟨k, p, d⟩
  simp only [mem_assign, Set.mem_union]
  by_cases hk : k ∈ K
  · by_cases hk' : k ∈ K'
    · simp only [hk, hk', true_and, true_or, not_true_eq_false, false_and, or_false]
      tauto
    · simp [hk, hk']
  · by_cases hk' : k ∈ K'
    · simp [hk, hk']
    · simp [hk, hk']

/-- Whom two goes displace, apart from the new member itself. -/
theorem mem_displaced_union {T : Holdings κ ω μ} {K K' : Set κ} {o : ω} {shared : Prop} {m d : μ}
    (hd : d ≠ m) :
    d ∈ displaced T (K ∪ K') o shared ↔
      d ∈ displaced T K o shared ∨ d ∈ displaced (assign T K o shared m) K' o shared := by
  constructor
  · rintro ⟨k, hk, p, hT, hp⟩
    by_cases hkK : k ∈ K
    · exact .inl ⟨k, hkK, p, hT, hp⟩
    · exact .inr ⟨k, hk.resolve_left hkK, p, mem_assign.mpr (.inr ⟨hkK, hT⟩), hp⟩
  · rintro (⟨k, hk, p, hT, hp⟩ | ⟨k, hk, p, hA, hp⟩)
    · exact ⟨k, .inl hk, p, hT, hp⟩
    · rcases mem_assign.mp hA with ⟨-, hpo, hm | ⟨hs, -⟩⟩ | ⟨-, hT⟩
      · exact absurd hm hd
      · exact absurd hs (hp hpo)
      · exact ⟨k, .inr hk, p, hT, hp⟩

/-! ### The ledger -/

/-- The leases, the grant each member acts under, and the members reported as losing one. -/
@[ext] structure Ledger (κ ω μ : Type*) where
  leases : Holdings κ ω μ
  grant : μ → Option (Set κ × ω)
  reported : Set μ

/-- What can happen to a ledger. -/
inductive Move (κ ω μ : Type*) where
  | acquire (m : μ) (K : Set κ) (o : ω) (shared : Prop)
  | release (m : μ)
  | revoke (o : ω)

variable [DecidableEq μ]

/-- One move: only a member without a grant acquires one. -/
def move (L : Ledger κ ω μ) : Move κ ω μ → Option (Ledger κ ω μ)
  | .acquire m K o shared =>
      match L.grant m with
      | some _ => none
      | none =>
          some ⟨assign L.leases K o shared m, Function.update L.grant m (some (K, o)),
            L.reported ∪ displaced L.leases K o shared⟩
  | .release m => some ⟨Leases.release L.leases m, Function.update L.grant m none, L.reported⟩
  | .revoke o => some ⟨Leases.revoke L.leases o, L.grant, L.reported ∪ revoked L.leases o⟩

/-- The leases are what the grants promise. -/
structure Agrees (L : Ledger κ ω μ) : Prop where
  covered : ∀ k o m, (k, o, m) ∈ L.leases → ∃ K, L.grant m = some (K, o) ∧ k ∈ K
  kept : ∀ m K o, L.grant m = some (K, o) → m ∉ L.reported → ∀ k ∈ K, (k, o, m) ∈ L.leases

omit [DecidableEq μ] in
theorem agrees_empty : Agrees (⟨∅, fun _ => none, ∅⟩ : Ledger κ ω μ) where
  covered k o m h := absurd h (Set.notMem_empty _)
  kept m K o h := by cases h

theorem Agrees.acquire {L : Ledger κ ω μ} (h : Agrees L) {m : μ} (hm : L.grant m = none) (K : Set κ)
    (o : ω) (shared : Prop) :
    Agrees ⟨assign L.leases K o shared m, Function.update L.grant m (some (K, o)),
      L.reported ∪ displaced L.leases K o shared⟩ where
  covered k p d hd := by
    rcases of_mem_assign hd with ⟨hk, rfl, rfl⟩ | hT
    · exact ⟨K, Function.update_self .., hk⟩
    · obtain ⟨K', hg, hk⟩ := h.covered k p d hT
      have hne : d ≠ m := by rintro rfl; rw [hm] at hg; cases hg
      exact ⟨K', (Function.update_of_ne hne ..).trans hg, hk⟩
  kept d K' p hg hr k hk := by
    dsimp only at hg hr ⊢
    by_cases hd : d = m
    · subst hd
      rw [Function.update_self] at hg
      obtain ⟨rfl, rfl⟩ := Prod.mk.inj (Option.some.inj hg)
      exact mem_assign_self hk
    · rw [Function.update_of_ne hd] at hg
      have hT := h.kept d K' p hg (fun hin => hr (.inl hin)) k hk
      exact (mem_assign_or_displaced hT).resolve_right (fun hdis => hr (.inr hdis))

theorem Agrees.release {L : Ledger κ ω μ} (h : Agrees L) (m : μ) :
    Agrees ⟨Leases.release L.leases m, Function.update L.grant m none, L.reported⟩ where
  covered k o d hd := by
    obtain ⟨K, hg, hk⟩ := h.covered k o d hd.1
    exact ⟨K, (Function.update_of_ne hd.2 ..).trans hg, hk⟩
  kept d K o hg hr k hk := by
    dsimp only at hg
    by_cases hd : d = m
    · subst hd
      rw [Function.update_self] at hg
      cases hg
    · rw [Function.update_of_ne hd] at hg
      exact ⟨h.kept d K o hg hr k hk, hd⟩

omit [DecidableEq μ] in
theorem Agrees.revoke {L : Ledger κ ω μ} (h : Agrees L) (o : ω) :
    Agrees ⟨Leases.revoke L.leases o, L.grant, L.reported ∪ revoked L.leases o⟩ where
  covered k p d hd := h.covered k p d hd.1
  kept d K p hg hr k hk := by
    have hT := h.kept d K p hg (fun hin => hr (.inl hin)) k hk
    refine ⟨hT, ?_⟩
    rintro rfl
    exact hr (.inr ⟨k, hT⟩)

/-- **Every move keeps the agreement**, in whatever order members acquire and release and owners are
revoked. -/
theorem agrees_of_move {L L' : Ledger κ ω μ} {a : Move κ ω μ} (h : Agrees L)
    (hmove : move L a = some L') : Agrees L' := by
  cases a with
  | acquire m K o shared =>
      cases hm : L.grant m with
      | some g => simp [move, hm] at hmove
      | none =>
          simp only [move, hm, Option.some.injEq] at hmove
          subst hmove
          exact h.acquire hm K o shared
  | release m =>
      obtain rfl := Option.some.inj hmove
      exact h.release m
  | revoke o =>
      obtain rfl := Option.some.inj hmove
      exact h.revoke o

/-- A lease is only given together with a grant. -/
theorem lease_of_move {L L' : Ledger κ ω μ} {a : Move κ ω μ} (hmove : move L a = some L') {k : κ} {o : ω}
    {m : μ} (h : (k, o, m) ∈ L'.leases) :
    (k, o, m) ∈ L.leases ∨ L.grant m = none ∧ (L'.grant m).isSome = true := by
  cases a with
  | acquire m' K o' shared =>
      cases hg : L.grant m' with
      | some g => simp [move, hg] at hmove
      | none =>
          simp only [move, hg, Option.some.injEq] at hmove
          subst hmove
          rcases of_mem_assign h with ⟨-, -, rfl⟩ | hT
          · exact .inr ⟨hg, by simp⟩
          · exact .inl hT
  | release m' =>
      obtain rfl := Option.some.inj hmove
      exact .inl h.1
  | revoke o' =>
      obtain rfl := Option.some.inj hmove
      exact .inl h.1

/-- Whoever a move reports had a lease to lose. -/
theorem reported_of_move {L L' : Ledger κ ω μ} {a : Move κ ω μ} (hmove : move L a = some L') {m : μ}
    (hm : m ∈ L'.reported) : m ∈ L.reported ∨ ∃ k o, (k, o, m) ∈ L.leases := by
  cases a with
  | acquire m' K o shared =>
      cases hg : L.grant m' with
      | some g => simp [move, hg] at hmove
      | none =>
          simp only [move, hg, Option.some.injEq] at hmove
          subst hmove
          rcases hm with hm | ⟨k, -, p, hT, -⟩
          · exact .inl hm
          · exact .inr ⟨k, p, hT⟩
  | release m' =>
      obtain rfl := Option.some.inj hmove
      exact .inl hm
  | revoke o =>
      obtain rfl := Option.some.inj hmove
      rcases hm with hm | ⟨k, hT⟩
      · exact .inl hm
      · exact .inr ⟨k, o, hT⟩

end Leases
