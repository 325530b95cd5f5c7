import Mathlib.Data.List.Perm.Basic
import Tuyau.AssocMap

/-! # Maps that count

A map from keys to positive numbers counts the members of a list by their keys: `Counts m l` says that
the map has a key exactly if it is in the list, with the number of its occurrences.  Such a map has no
zero entry.  Adding a member adds one to its key (`Counts.cons`), and taking one away subtracts one or
drops the key, if it was the last one (`Counts.tail`). -/

namespace CountMap

variable {κ : Type*} [DecidableEq κ]

/-- The map has the keys of the list, each with the number of its occurrences. -/
def Counts (m : AssocMap κ ℕ) (l : List κ) : Prop :=
  ∀ k, m.lookup k = if k ∈ l then some (l.count k) else none

variable {m : AssocMap κ ℕ} {l l' : List κ} {k : κ}

theorem counts_empty : Counts (∅ : AssocMap κ ℕ) [] := by
  intro k
  simp

theorem Counts.perm (h : Counts m l) (hl : l.Perm l') : Counts m l' := by
  intro k
  rw [h k, hl.count_eq, if_congr hl.mem_iff rfl rfl]

theorem Counts.getD (h : Counts m l) (k : κ) : (m.lookup k).getD 0 = l.count k := by
  rw [h k]
  split_ifs with hk
  · rfl
  · exact (List.count_eq_zero.mpr hk).symm

theorem Counts.mem_iff (h : Counts m l) : k ∈ m ↔ k ∈ l := by
  rw [← AList.lookup_isSome, h k]
  split_ifs with hk
  · simp [hk]
  · simp [hk]

theorem Counts.ne_zero (h : Counts m l) (k : κ) : m.lookup k ≠ some 0 := by
  rw [h k]
  split_ifs with hk
  · intro hzero
    exact List.count_eq_zero.mp (Option.some.inj hzero) hk
  · simp

/-- One more member. -/
theorem Counts.cons (h : Counts m l) (k : κ) : Counts (AList.insert k (l.count k + 1) m) (k :: l) := by
  intro k'
  rw [AssocMap.lookup_insert_eq_ite]
  split_ifs with hk hin hin
  · rw [hk, List.count_cons_self]
  · exact absurd (hk ▸ List.mem_cons_self) hin
  · rw [h k', List.count_cons_of_ne (Ne.symm hk), if_pos ((List.mem_cons.mp hin).resolve_left hk)]
  · rw [h k', if_neg fun hl => hin (List.mem_cons_of_mem _ hl)]

/-- One member less, and others with its key are left. -/
theorem Counts.tail (h : Counts m (k :: l)) (hk : k ∈ l) : Counts (AList.insert k (l.count k) m) l := by
  intro k'
  rw [AssocMap.lookup_insert_eq_ite]
  split_ifs with heq hin hin
  · rw [heq]
  · exact absurd (heq ▸ hk) hin
  · rw [h k', if_pos (List.mem_cons_of_mem _ hin), List.count_cons_of_ne (Ne.symm heq)]
  · rw [h k', if_neg fun hl => hin ((List.mem_cons.mp hl).resolve_left heq)]

/-- The last member with its key is gone. -/
theorem Counts.erase (h : Counts m (k :: l)) (hk : k ∉ l) : Counts (AList.erase k m) l := by
  intro k'
  by_cases heq : k' = k
  · rw [heq, AList.lookup_erase, if_neg hk]
  · rw [AList.lookup_erase_ne heq, h k', List.count_cons_of_ne (Ne.symm heq)]
    simp only [List.mem_cons, heq, false_or]

end CountMap
