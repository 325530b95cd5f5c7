import Mathlib.Data.Int.CardIntervalMod
import Mathlib.Data.List.Rotate
import Tuyau.CyclicScan

/-! # Scans one after another

Scans of a ring that run one after another, each from the cursor that the last one left.  As long as
the cursor does not wrap, it stands for a rotation of the ring: a scan from cursor `c` looks at the
elements of `ring.rotate c` from the front, and each draw rotates the ring by one.  What counts is the
order of the elements that pass, `passing p ring c`: a draw of an element that does not pass leaves it
as it is, and a draw of one that does is a rotation by one (`passing_succ`).

So a scan answers the head of this list and rotates it by one (`scan_step`), and a sequence of scans
goes round it: **`scans_eq`** gives the answer of the `i`-th scan as the element at index `i` modulo
the number of elements that pass.  It follows that the numbers of times two of them are the answer
differ by at most one (`count_scans_le`). -/

namespace CyclicScan

variable {α : Type*} (p : α → Bool) (ring : List α) (hr : 0 < ring.length)

/-- The number of draws that `scan` makes. -/
def draws : ℕ → UInt64 → ℕ
  | 0, _ => 0
  | k + 1, cursor => if p (pick ring hr cursor) then 1 else draws k (cursor + 1) + 1

/-- The answers of `k` scans one after another. -/
def scans : ℕ → UInt64 → List (Option α)
  | 0, _ => []
  | k + 1, cursor =>
      (scan p ring hr ring.length cursor).1 :: scans k (scan p ring hr ring.length cursor).2

/-- The draws that `k` scans make together. -/
def totalDraws : ℕ → UInt64 → ℕ
  | 0, _ => 0
  | k + 1, cursor => draws p ring hr ring.length cursor + totalDraws k (scan p ring hr ring.length cursor).2

/-- The elements that pass, in the order in which they come under a cursor. -/
def passing (cursor : ℕ) : List α := (ring.rotate cursor).filter p

variable {p ring hr}

/-! ### One scan -/

/-- The ring seen from a cursor begins with the element under it, which is the last one seen from the
next cursor. -/
theorem exists_rotate_eq (hr : 0 < ring.length) (c : UInt64) :
    ∃ rest, ring.rotate c.toNat = pick ring hr c :: rest ∧
      ring.rotate (c.toNat + 1) = rest ++ [pick ring hr c] := by
  have hlen : 0 < (ring.rotate c.toNat).length := by rwa [List.length_rotate]
  obtain ⟨x, rest, hrest⟩ := List.exists_cons_of_length_pos hlen
  have hx : x = pick ring hr c := by
    have hget : (ring.rotate c.toNat)[0] = pick ring hr c := by
      rw [List.getElem_rotate, pick, List.get_eq_getElem]
      simp only [Nat.zero_add]
    rw [← hget]
    simp [hrest]
  refine ⟨rest, by rw [hrest, hx], ?_⟩
  rw [← List.rotate_rotate, hrest, hx, List.rotate_cons_succ, List.rotate_zero]

/-- A draw of an element that passes rotates those that pass; any other draw leaves them. -/
theorem passing_succ (hr : 0 < ring.length) (c : UInt64) :
    passing p ring (c.toNat + 1) =
      if p (pick ring hr c) then (passing p ring c.toNat).rotate 1 else passing p ring c.toNat := by
  obtain ⟨rest, hrest, hnext⟩ := exists_rotate_eq hr c
  rw [passing, passing, hrest, hnext, List.filter_append]
  split_ifs with hp
  · rw [List.filter_cons_of_pos hp, List.filter_cons_of_pos hp, List.filter_nil, List.rotate_cons_succ,
      List.rotate_zero]
  · rw [List.filter_cons_of_neg hp, List.filter_cons_of_neg hp, List.filter_nil, List.append_nil]

theorem toNat_add_one {c : UInt64} (h : c.toNat + 1 < 2 ^ 64) : (c + 1).toNat = c.toNat + 1 := by
  rw [UInt64.toNat_add]
  exact Nat.mod_eq_of_lt h

/-- What a scan of at most `k` draws answers, and where it leaves the cursor. -/
theorem scan_spec {k : ℕ} (hk : k ≤ ring.length) {c : UInt64}
    (hwrap : c.toNat + draws p ring hr k c < 2 ^ 64) :
    (scan p ring hr k c).1 = ((ring.rotate c.toNat).take k).find? p ∧
      (scan p ring hr k c).2.toNat = c.toNat + draws p ring hr k c ∧
      passing p ring (scan p ring hr k c).2.toNat =
        if (scan p ring hr k c).1.isSome then (passing p ring c.toNat).rotate 1
        else passing p ring c.toNat := by
  induction k generalizing c with
  | zero => simp [scan, draws]
  | succ k ih =>
      obtain ⟨rest, hrest, hnext⟩ := exists_rotate_eq hr c
      have hlen : rest.length + 1 = ring.length := by
        rw [← List.length_rotate ring c.toNat, hrest, List.length_cons]
      have hpassing := passing_succ (p := p) hr c
      rw [hrest, List.take_succ_cons]
      by_cases hp : p (pick ring hr c) = true
      · rw [draws, if_pos hp] at hwrap
        rw [if_pos hp] at hpassing
        rw [scan, draws, if_pos hp, if_pos hp, List.find?_cons_of_pos hp]
        refine ⟨rfl, toNat_add_one hwrap, ?_⟩
        rw [toNat_add_one hwrap, hpassing]
        rfl
      · rw [draws, if_neg hp] at hwrap
        rw [if_neg hp] at hpassing
        have hone : (c + 1).toNat = c.toNat + 1 := toNat_add_one (by omega)
        obtain ⟨hanswer, hcursor, hafter⟩ := ih (c := c + 1) (by omega) (by omega)
        rw [hone, hnext, List.take_append_of_le_length (by omega)] at hanswer
        rw [hone, hpassing] at hafter
        rw [scan, draws, if_neg hp, if_neg hp, List.find?_cons_of_neg hp]
        exact ⟨hanswer, by omega, hafter⟩

/-- A scan of the whole ring answers the first element that passes, and those that pass are rotated
by one. -/
theorem scan_step {c : UInt64} (hwrap : c.toNat + draws p ring hr ring.length c < 2 ^ 64) :
    (scan p ring hr ring.length c).1 = (passing p ring c.toNat).head? ∧
      (scan p ring hr ring.length c).2.toNat = c.toNat + draws p ring hr ring.length c ∧
      passing p ring (scan p ring hr ring.length c).2.toNat = (passing p ring c.toNat).rotate 1 := by
  obtain ⟨hanswer, hcursor, hafter⟩ := scan_spec le_rfl hwrap
  rw [List.take_of_length_le (by rw [List.length_rotate]), ← List.head?_filter] at hanswer
  refine ⟨hanswer, hcursor, ?_⟩
  rw [hafter]
  split_ifs with hsome
  · rfl
  · have hnil : passing p ring c.toNat = [] := by
      rw [hanswer, Bool.not_eq_true, Option.isSome_eq_false_iff, Option.isNone_iff_eq_none,
        List.head?_eq_none_iff] at hsome
      exact hsome
    rw [hnil, List.rotate_nil]

/-! ### Many scans -/

/-- **The answers of scans one after another** go round the elements that pass. -/
theorem scans_eq {k : ℕ} {c : UInt64} (hwrap : c.toNat + totalDraws p ring hr k c < 2 ^ 64) :
    scans p ring hr k c = (List.range k).map fun i =>
      (passing p ring c.toNat)[i % (passing p ring c.toNat).length]? := by
  induction k generalizing c with
  | zero => rfl
  | succ k ih =>
      rw [totalDraws] at hwrap
      obtain ⟨hanswer, hcursor, hafter⟩ := @scan_step _ p ring hr c (by omega)
      have hrest := ih (c := (scan p ring hr ring.length c).2) (by omega)
      rw [scans, List.range_succ_eq_map, List.map_cons, List.map_map, hrest, hanswer, hafter]
      congr 1
      · rw [Nat.zero_mod, List.head?_eq_getElem?]
      · refine List.map_congr_left fun i _ => ?_
        rw [List.length_rotate]
        show _ = (passing p ring c.toNat)[(i + 1) % _]?
        rcases Nat.eq_zero_or_pos (passing p ring c.toNat).length with hzero | hpos
        · rw [List.length_eq_zero_iff.mp hzero]
          simp
        · rw [List.getElem?_rotate (Nat.mod_lt i hpos), Nat.mod_add_mod]

/-! ### Fairness -/

theorem countP_range (q : ℕ → Prop) [DecidablePred q] (k : ℕ) :
    (List.range k).countP (fun i => decide (q i)) = Nat.count q k := by
  induction k with
  | zero => rfl
  | succ k ih =>
      rw [List.range_succ, List.countP_append, ih, Nat.count_succ, List.countP_singleton]
      simp only [decide_eq_true_eq]

variable [DecidableEq α]

/-- How often one element of a list comes when the list is gone round. -/
theorem count_cycle {l : List α} (hl : l.Nodup) {x : α} (hx : x ∈ l) (k : ℕ) :
    ((List.range k).map fun i => l[i % l.length]?).count (some x) =
      Nat.count (· ≡ l.idxOf x [MOD l.length]) k := by
  have hidx : l.idxOf x < l.length := List.idxOf_lt_length_iff.mpr hx
  rw [List.count, List.countP_map, ← countP_range]
  congr 1
  ext i
  have hi : i % l.length < l.length := Nat.mod_lt i (by omega)
  rw [Function.comp_apply, Bool.eq_iff_iff, beq_iff_eq, decide_eq_true_eq, Nat.ModEq,
    Nat.mod_eq_of_lt hidx, List.getElem?_eq_getElem hi, Option.some.injEq]
  constructor
  · rintro rfl
    exact (hl.idxOf_getElem _ hi).symm
  · intro heq
    simp only [heq]
    exact List.getElem_idxOf hidx

/-- **Scans one after another are fair**: two elements that pass are the answer equally often, up to
one. -/
theorem count_scans_le (hring : ring.Nodup) {k : ℕ} {c : UInt64}
    (hwrap : c.toNat + totalDraws p ring hr k c < 2 ^ 64) {x y : α} (hx : x ∈ ring) (hpx : p x = true)
    (hy : y ∈ ring) (hpy : p y = true) :
    (scans p ring hr k c).count (some x) ≤ (scans p ring hr k c).count (some y) + 1 := by
  have hnodup : (passing p ring c.toNat).Nodup := (List.nodup_rotate.mpr hring).filter p
  have hmem : ∀ {z}, z ∈ ring → p z = true → z ∈ passing p ring c.toNat := fun hz hpz =>
    List.mem_filter.mpr ⟨List.mem_rotate.mpr hz, hpz⟩
  have hpos : 0 < (passing p ring c.toNat).length := List.length_pos_of_mem (hmem hx hpx)
  rw [scans_eq hwrap, count_cycle hnodup (hmem hx hpx), count_cycle hnodup (hmem hy hpy),
    Nat.count_modEq_card _ hpos, Nat.count_modEq_card _ hpos]
  split_ifs <;> omega

end CyclicScan
