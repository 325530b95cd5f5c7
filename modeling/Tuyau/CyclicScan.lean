import Mathlib.Data.List.Count
import Mathlib.Data.List.Induction
import Mathlib.Data.UInt
import Mathlib.Logic.Function.Basic
import Mathlib.Tactic.Ring

/-! # Scanning a ring behind a shared cursor

A ring is a non-empty list, and a cursor is a 64-bit counter that wraps around.  A scan of
the ring makes at most `ring.length` draws: each draw reads the cursor, advances it by one
and tests the element at index `cursor % ring.length`; the first element that passes is the
answer.

* `scan` is one scan that nobody disturbs.  `scan_eq_some_iff` and `scan_eq_none_iff` say
  which element it answers, and `scan_eq_none_iff_of_le` that it misses nothing as long as
  the cursor does not wrap in the middle of it.
* `Shared` is the state of any number of scans that draw from one cursor, and `interleave`
  performs their draws in the order of a schedule.  `interleave_replicate` identifies an
  undisturbed scan with `scan`.

Draws of other scans move the cursor on, so the draws of one scan need not cover the ring:
`exists_starving_schedule` builds, for every ring with an element that does not pass, an
interleaving in which one scan draws that element every time.  Hence a ring on which no
interleaving makes a scan fail is one all of whose elements pass
(`never_misses_iff`). -/

namespace CyclicScan

variable {α : Type*} (p : α → Bool) (ring : List α) (hr : 0 < ring.length)

/-- The element under a cursor. -/
def pick (cursor : UInt64) : α := ring.get ⟨cursor.toNat % ring.length, Nat.mod_lt _ hr⟩

/-- At most `k` draws from `cursor` on: the first element that passes, and the cursor left. -/
def scan : ℕ → UInt64 → Option α × UInt64
  | 0, cursor => (none, cursor)
  | k + 1, cursor =>
      if p (pick ring hr cursor) then (some (pick ring hr cursor), cursor + 1)
      else scan k (cursor + 1)

variable {p ring hr}

theorem pick_mem (cursor : UInt64) : pick ring hr cursor ∈ ring := List.get_mem _ _

theorem add_one_add_ofNat (c : UInt64) (j : ℕ) :
    c + 1 + UInt64.ofNat j = c + UInt64.ofNat (j + 1) := by
  rw [UInt64.ofNat_add, UInt64.add_assoc, UInt64.add_comm 1]
  rfl

/-- The answer of a scan is the first element in cursor order that passes. -/
theorem scan_eq_some_iff {k : ℕ} {c : UInt64} {x : α} :
    (scan p ring hr k c).1 = some x ↔
      ∃ j < k, pick ring hr (c + UInt64.ofNat j) = x ∧ p x = true ∧
        ∀ i < j, p (pick ring hr (c + UInt64.ofNat i)) = false := by
  induction k generalizing c with
  | zero => simp [scan]
  | succ k ih =>
      rw [scan]
      split_ifs with hp
      · constructor
        · intro h
          obtain rfl := Option.some.inj h
          exact ⟨0, by omega, by simp, hp, by simp⟩
        · rintro ⟨j, -, rfl, -, hbefore⟩
          cases j with
          | zero => simp
          | succ j =>
              have h0 := hbefore 0 (by omega)
              simp [hp] at h0
      · rw [ih]
        constructor
        · rintro ⟨j, hj, hx, hpx, hbefore⟩
          refine ⟨j + 1, by omega, by rw [← add_one_add_ofNat]; exact hx, hpx, ?_⟩
          intro i hi
          cases i with
          | zero => simpa using hp
          | succ i => rw [← add_one_add_ofNat]; exact hbefore i (by omega)
        · rintro ⟨j, hj, hx, hpx, hbefore⟩
          cases j with
          | zero =>
              have hc : pick ring hr c = x := by simpa using hx
              rw [hc] at hp
              exact absurd hpx hp
          | succ j =>
              refine ⟨j, by omega, by rw [add_one_add_ofNat]; exact hx, hpx, ?_⟩
              intro i hi
              rw [add_one_add_ofNat]
              exact hbefore (i + 1) (by omega)

theorem scan_eq_none_iff {k : ℕ} {c : UInt64} :
    (scan p ring hr k c).1 = none ↔ ∀ j < k, p (pick ring hr (c + UInt64.ofNat j)) = false := by
  induction k generalizing c with
  | zero => simp [scan]
  | succ k ih =>
      rw [scan]
      split_ifs with hp
      · simp only [false_iff, not_forall]
        exact ⟨0, by omega, by simpa using hp⟩
      · rw [ih]
        constructor
        · intro h j hj
          cases j with
          | zero => simpa using hp
          | succ j => rw [← add_one_add_ofNat]; exact h j (by omega)
        · intro h j hj
          rw [add_one_add_ofNat]
          exact h (j + 1) (by omega)

theorem scan_mem {k : ℕ} {c : UInt64} {x : α} (h : (scan p ring hr k c).1 = some x) :
    x ∈ ring ∧ p x = true := by
  obtain ⟨j, -, rfl, hp, -⟩ := scan_eq_some_iff.mp h
  exact ⟨pick_mem _, hp⟩

/-! ### Coverage -/

/-- Some number of steps brings the cursor to any index of the ring. -/
theorem exists_pick_eq (hlen : ring.length ≤ 2 ^ 64) (c : UInt64) {x : α} (hx : x ∈ ring) :
    ∃ j, pick ring hr (c + UInt64.ofNat j) = x := by
  obtain ⟨i, hi, rfl⟩ := List.mem_iff_getElem.mp hx
  refine ⟨(UInt64.ofNat i - c).toNat, ?_⟩
  have hc : c + UInt64.ofNat (UInt64.ofNat i - c).toNat = UInt64.ofNat i := by
    rw [UInt64.ofNat_toNat, UInt64.add_comm, UInt64.sub_add_cancel]
  have hi' : (UInt64.ofNat i).toNat = i := UInt64.toNat_ofNat_of_lt' (by
    have : UInt64.size = 2 ^ 64 := rfl
    omega)
  simp only [pick, hc, hi', Nat.mod_eq_of_lt hi, List.get_eq_getElem]

/-- `n` consecutive numbers meet every residue modulo `n`. -/
theorem exists_add_mod_eq {n i : ℕ} (hi : i < n) (c : ℕ) : ∃ j < n, (c + j) % n = i := by
  have hn : 0 < n := by omega
  refine ⟨(i + (n - c % n)) % n, Nat.mod_lt _ hn, ?_⟩
  have hc := Nat.mod_lt c hn
  calc (c + (i + (n - c % n)) % n) % n = (c % n + (i + (n - c % n))) % n := by
        rw [Nat.add_mod_mod, Nat.mod_add_mod]
    _ = (i + n) % n := by congr 1; omega
    _ = i := by rw [Nat.add_mod_right, Nat.mod_eq_of_lt hi]

/-- As long as the cursor does not wrap, a scan of the whole ring misses nothing. -/
theorem scan_eq_none_iff_of_le {c : UInt64} (hc : c.toNat + ring.length ≤ 2 ^ 64) :
    (scan p ring hr ring.length c).1 = none ↔ ∀ x ∈ ring, p x = false := by
  rw [scan_eq_none_iff]
  constructor
  · intro h x hx
    obtain ⟨i, hi, rfl⟩ := List.mem_iff_getElem.mp hx
    obtain ⟨j, hj, hij⟩ := exists_add_mod_eq hi c.toNat
    have hsum : (c + UInt64.ofNat j).toNat = c.toNat + j := by
      rw [UInt64.toNat_add, UInt64.toNat_ofNat', Nat.add_mod_mod, Nat.mod_eq_of_lt (by omega)]
    have := h j hj
    simpa only [pick, hsum, hij, List.get_eq_getElem] using this
  · intro h j _
    exact h _ (pick_mem _)

/-! ### Interleaved scans -/

/-- A scan in progress, with the draws it has left, or its answer. -/
inductive Scanner (α : Type*) where
  | scanning (left : ℕ)
  | found (x : α)
deriving DecidableEq

/-- The cursor and the scans that draw from it. -/
structure Shared (α : Type*) where
  cursor : UInt64
  scanner : ℕ → Scanner α

variable (p ring hr)

/-- One draw of scan `i`; a scan that has answered or used up its draws does nothing. -/
def draw (s : Shared α) (i : ℕ) : Shared α :=
  match s.scanner i with
  | .scanning (k + 1) =>
      ⟨s.cursor + 1, Function.update s.scanner i
        (if p (pick ring hr s.cursor) then .found (pick ring hr s.cursor) else .scanning k)⟩
  | _ => s

/-- Every scan is about to make its first draw. -/
def start (cursor : UInt64) : Shared α := ⟨cursor, fun _ => .scanning ring.length⟩

/-- Draws in the order of a schedule. -/
def interleave (s : Shared α) (schedule : List ℕ) : Shared α := schedule.foldl (draw p ring hr) s

variable {p ring hr}

theorem interleave_append (s : Shared α) (l₁ l₂ : List ℕ) :
    interleave p ring hr s (l₁ ++ l₂) = interleave p ring hr (interleave p ring hr s l₁) l₂ :=
  List.foldl_append

theorem draw_scanning {s : Shared α} {i k : ℕ} (h : s.scanner i = .scanning (k + 1)) :
    draw p ring hr s i = ⟨s.cursor + 1, Function.update s.scanner i
      (if p (pick ring hr s.cursor) then .found (pick ring hr s.cursor) else .scanning k)⟩ := by
  simp only [draw, h]

theorem draw_scanner_self {s : Shared α} {i k : ℕ} (h : s.scanner i = .scanning (k + 1)) :
    (draw p ring hr s i).scanner i =
      if p (pick ring hr s.cursor) then .found (pick ring hr s.cursor) else .scanning k := by
  rw [draw_scanning h]
  exact Function.update_self ..

theorem draw_found {s : Shared α} {i : ℕ} {x : α} (h : s.scanner i = .found x) :
    draw p ring hr s i = s := by
  simp only [draw, h]

theorem draw_scanner_ne {s : Shared α} {i j : ℕ} (h : j ≠ i) :
    (draw p ring hr s i).scanner j = s.scanner j := by
  unfold draw
  split
  · exact Function.update_of_ne h _ _
  · rfl

/-- An undisturbed scan is `scan`. -/
theorem interleave_replicate {i : ℕ} : ∀ {k : ℕ} {s : Shared α}, s.scanner i = .scanning k →
    (interleave p ring hr s (List.replicate k i)).cursor = (scan p ring hr k s.cursor).2 ∧
    (interleave p ring hr s (List.replicate k i)).scanner i =
      ((scan p ring hr k s.cursor).1.elim (.scanning 0) .found : Scanner α)
  | 0, s, h => ⟨rfl, h⟩
  | k + 1, s, h => by
      have hd : draw p ring hr s i = _ := draw_scanning h
      rw [List.replicate_succ, interleave, List.foldl_cons, hd, scan]
      split_ifs with hp
      · have hstill : ∀ n, (List.replicate n i).foldl (draw p ring hr)
            ⟨s.cursor + 1, Function.update s.scanner i (.found (pick ring hr s.cursor))⟩ =
            ⟨s.cursor + 1, Function.update s.scanner i (.found (pick ring hr s.cursor))⟩ := by
          intro n
          induction n with
          | zero => rfl
          | succ n ih =>
              rw [List.replicate_succ, List.foldl_cons, draw_found (Function.update_self ..)]
              exact ih
        rw [hstill]
        exact ⟨rfl, Function.update_self ..⟩
      · exact interleave_replicate (s := ⟨s.cursor + 1, Function.update s.scanner i (.scanning k)⟩)
          (Function.update_self ..)

/-- In every interleaving an answer is an element of the ring that passes. -/
theorem interleave_found {schedule : List ℕ} {c : UInt64} {i : ℕ} {x : α}
    (h : (interleave p ring hr (start ring c) schedule).scanner i = .found x) :
    x ∈ ring ∧ p x = true := by
  induction schedule using List.reverseRecOn with
  | nil => simp [interleave, start] at h
  | append_singleton l j ih =>
      rw [interleave_append] at h
      by_cases hij : i = j
      · subst hij
        simp only [interleave, List.foldl_cons, List.foldl_nil] at h ih
        cases hs : ((l.foldl (draw p ring hr) (start ring c)).scanner i) with
        | found y =>
            rw [draw_found hs] at h
            exact ih h
        | scanning k =>
            cases k with
            | zero => simp [draw, hs] at h
            | succ k =>
                rw [draw_scanner_self hs] at h
                split_ifs at h with hp
                cases h
                exact ⟨pick_mem _, hp⟩
      · simp only [interleave, List.foldl_cons, List.foldl_nil] at h
        rw [draw_scanner_ne hij] at h
        exact ih h

/-- Fresh scans advance the cursor by one draw each and touch nobody else. -/
theorem interleave_range {s : Shared α} {N : ℕ} (hs : ∀ i, N ≤ i → s.scanner i = .scanning ring.length) :
    ∀ m, (interleave p ring hr s (List.range' N m)).cursor = s.cursor + UInt64.ofNat m ∧
      (∀ i, i < N → (interleave p ring hr s (List.range' N m)).scanner i = s.scanner i) ∧
      ∀ i, N + m ≤ i → (interleave p ring hr s (List.range' N m)).scanner i = .scanning ring.length
  | 0 => ⟨by simp [interleave], fun _ _ => rfl, fun i hi => hs i (by omega)⟩
  | m + 1 => by
      obtain ⟨hcur, hlow, hhigh⟩ := interleave_range hs m
      obtain ⟨n, hn⟩ : ∃ n, ring.length = n + 1 := ⟨ring.length - 1, by omega⟩
      have hnext : (interleave p ring hr s (List.range' N m)).scanner (N + m) = .scanning (n + 1) := by
        rw [hhigh (N + m) (by omega), hn]
      have hsplit : interleave p ring hr s (List.range' N (m + 1)) =
          draw p ring hr (interleave p ring hr s (List.range' N m)) (N + m) := by
        rw [List.range'_1_concat, interleave_append]
        rfl
      rw [hsplit]
      refine ⟨?_, ?_, ?_⟩
      · rw [draw_scanning hnext, hcur, UInt64.ofNat_add, ← UInt64.add_assoc]
        rfl
      · intro i hi
        rw [draw_scanner_ne (by omega), hlow i hi]
      · intro i hi
        rw [draw_scanner_ne (by omega), hhigh i (by omega)]

/-- From any state with fresh scans, scan `0` can be made to spend its draws on `x`. -/
theorem exists_starving (hlen : ring.length ≤ 2 ^ 64) {x : α} (hx : x ∈ ring) (hpx : p x = false) :
    ∀ (k N : ℕ) (s : Shared α), 0 < N → s.scanner 0 = .scanning k →
      (∀ i, N ≤ i → s.scanner i = .scanning ring.length) →
      ∃ schedule : List ℕ, schedule.count 0 = k ∧
        (interleave p ring hr s schedule).scanner 0 = .scanning 0
  | 0, _, s, _, h0, _ => ⟨[], rfl, h0⟩
  | k + 1, N, s, hN, h0, hfresh => by
      obtain ⟨m, hm⟩ : ∃ m, pick ring hr (s.cursor + UInt64.ofNat m) = x :=
        exists_pick_eq hlen s.cursor hx
      obtain ⟨hcur, hlow, hhigh⟩ := @interleave_range _ p ring hr s N hfresh m
      set s₁ := interleave p ring hr s (List.range' N m) with hs₁
      have h0₁ : s₁.scanner 0 = .scanning (k + 1) := by rw [hlow 0 hN, h0]
      obtain ⟨rest, hcount, hdone⟩ := exists_starving hlen hx hpx k (N + m) (draw p ring hr s₁ 0) (by omega)
        (by rw [draw_scanner_self h0₁, hcur, hm, hpx]; rfl)
        (by
          intro i hi
          rw [draw_scanner_ne (by omega), hhigh i hi])
      refine ⟨List.range' N m ++ 0 :: rest, ?_, ?_⟩
      · have hz : (List.range' N m).count 0 = 0 := by
          rw [List.count_eq_zero, List.mem_range']
          rintro ⟨i, -, hi⟩
          omega
        rw [List.count_append, hz, List.count_cons_self, hcount]
        omega
      · rw [interleave_append, ← hs₁, interleave, List.foldl_cons]
        exact hdone

/-- **Starvation**: where some element does not pass, some interleaving lets one scan use up
all its draws without an answer, whatever the cursor it starts from. -/
theorem exists_starving_schedule (hlen : ring.length ≤ 2 ^ 64) {x : α} (hx : x ∈ ring)
    (hpx : p x = false) (c : UInt64) :
    ∃ schedule : List ℕ, schedule.count 0 = ring.length ∧
      (interleave p ring hr (start ring c) schedule).scanner 0 = .scanning 0 :=
  exists_starving hlen hx hpx ring.length 1 (start ring c) (by omega) rfl (fun _ _ => rfl)

/-- Where every element passes, the first draw of every scan is its last. -/
theorem interleave_all_pass (hall : ∀ x ∈ ring, p x = true) (c : UInt64) (schedule : List ℕ) (i : ℕ) :
    (i ∉ schedule → (interleave p ring hr (start ring c) schedule).scanner i = .scanning ring.length) ∧
    (i ∈ schedule → ∃ x, (interleave p ring hr (start ring c) schedule).scanner i = .found x) := by
  induction schedule using List.reverseRecOn with
  | nil => exact ⟨fun _ => rfl, by simp⟩
  | append_singleton l j ih =>
      obtain ⟨ih₁, ih₂⟩ := ih
      rw [interleave_append]
      simp only [interleave, List.foldl_cons, List.foldl_nil, List.mem_append, List.mem_singleton]
        at ih₁ ih₂ ⊢
      by_cases hij : i = j
      · subst hij
        refine ⟨by simp, fun _ => ?_⟩
        by_cases hl : i ∈ l
        · obtain ⟨x, hx⟩ := ih₂ hl
          exact ⟨x, by rw [draw_found hx, hx]⟩
        · obtain ⟨n, hn⟩ : ∃ n, ring.length = n + 1 := ⟨ring.length - 1, by omega⟩
          have hs := ih₁ hl
          rw [hn] at hs
          rw [draw_scanner_self hs, if_pos (hall _ (pick_mem _))]
          exact ⟨_, rfl⟩
      · rw [draw_scanner_ne hij]
        exact ⟨fun h => ih₁ (fun hl => h (.inl hl)), fun h => ih₂ (h.resolve_right hij)⟩

/-- **When interleaved scans never miss**: every scan that makes its draws gets an answer, in
every interleaving, exactly when every element of the ring passes. -/
theorem never_misses_iff (hlen : ring.length ≤ 2 ^ 64) (c : UInt64) :
    (∀ (schedule : List ℕ) (i : ℕ), ring.length ≤ schedule.count i →
      ∃ x, (interleave p ring hr (start ring c) schedule).scanner i = .found x) ↔
      ∀ x ∈ ring, p x = true := by
  constructor
  · intro h x hx
    by_contra hpx
    obtain ⟨schedule, hcount, hmiss⟩ :=
      @exists_starving_schedule _ p ring hr hlen x hx (Bool.eq_false_iff.mpr hpx) c
    obtain ⟨y, hy⟩ := h schedule 0 hcount.ge
    rw [hmiss] at hy
    cases hy
  · intro hall schedule i hcount
    exact (interleave_all_pass hall c schedule i).2 (List.count_pos_iff.mp (by omega))

end CyclicScan
