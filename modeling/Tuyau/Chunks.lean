import Mathlib.Data.List.Basic

/-! # Streams that arrive in chunks

A stream is the list of the chunks it will deliver, some of which may be empty; its content is their
concatenation, and the cuts between them are where the transport happened to make them.  There are
three ways to take something off such a stream: `read` gives what the next chunk has, as far as there
is room, `readExact` goes on until it has a given number of items, and `pullTo` appends whole chunks
to a buffer until it holds enough.  The lemmas say what each of them does in terms of the content
alone, whatever the cuts: no item is lost, repeated or moved, and only the end of the stream makes
them fail. -/

namespace Chunks

variable {α : Type*}

/-- One read with room for `n` items; nothing is read at the end of the stream only. -/
def read (n : ℕ) : List (List α) → List α × List (List α)
  | [] => ([], [])
  | c :: cs => if c.isEmpty then read n cs else (c.take n, c.drop n :: cs)

/-- Read until there are `n` items. -/
def readExact : ℕ → List (List α) → Option (List α × List (List α))
  | 0, cs => some ([], cs)
  | _ + 1, [] => none
  | n + 1, c :: cs =>
      if n + 1 ≤ c.length then some (c.take (n + 1), c.drop (n + 1) :: cs)
      else (readExact (n + 1 - c.length) cs).map fun p => (c ++ p.1, p.2)

/-- Append whole chunks to a buffer until it holds `n` items. -/
def pullTo (n : ℕ) : List α → List (List α) → Option (List α × List (List α))
  | buf, [] => if buf.length < n then none else some (buf, [])
  | buf, c :: cs => if buf.length < n then pullTo n (buf ++ c) cs else some (buf, c :: cs)

/-! ### One read -/

theorem read_append (n : ℕ) (cs : List (List α)) :
    (read n cs).1 ++ (read n cs).2.flatten = cs.flatten := by
  induction cs with
  | nil => rfl
  | cons c cs ih =>
      rw [read]
      split_ifs with hc
      · rw [ih, List.flatten_cons, List.isEmpty_iff.mp hc, List.nil_append]
      · rw [List.flatten_cons, ← List.append_assoc, List.take_append_drop, List.flatten_cons]

/-- With room for something, only the end of the stream gives nothing. -/
theorem read_eq_nil_iff {n : ℕ} (hn : 0 < n) (cs : List (List α)) :
    (read n cs).1 = [] ↔ cs.flatten = [] := by
  induction cs with
  | nil => exact Iff.rfl
  | cons c cs ih =>
      rw [read]
      split_ifs with hc
      · rw [ih, List.flatten_cons, List.isEmpty_iff.mp hc, List.nil_append]
      · rw [List.isEmpty_iff] at hc
        have hn' : n ≠ 0 := Nat.pos_iff_ne_zero.mp hn
        simp [List.take_eq_nil_iff, hc, hn']

/-! ### Reads of a given length -/

theorem exists_readExact {n : ℕ} {cs : List (List α)} (h : n ≤ cs.flatten.length) :
    ∃ rest, readExact n cs = some (cs.flatten.take n, rest) ∧ rest.flatten = cs.flatten.drop n := by
  induction cs generalizing n with
  | nil =>
      obtain rfl : n = 0 := Nat.le_zero.mp h
      exact ⟨[], rfl, rfl⟩
  | cons c cs ih =>
      cases n with
      | zero => exact ⟨c :: cs, rfl, rfl⟩
      | succ n =>
          rw [readExact, List.flatten_cons]
          split_ifs with hlen
          · refine ⟨c.drop (n + 1) :: cs, ?_, ?_⟩
            · rw [List.take_append_of_le_length hlen]
            · rw [List.flatten_cons, List.drop_append_of_le_length hlen]
          · rw [List.flatten_cons, List.length_append] at h
            have hc : c.length ≤ n + 1 := by omega
            obtain ⟨rest, hread, hrest⟩ := ih (n := n + 1 - c.length) (by omega)
            refine ⟨rest, ?_, ?_⟩
            · rw [hread, Option.map_some, List.take_append, List.take_of_length_le hc]
            · rw [hrest, List.drop_append, List.drop_of_length_le hc, List.nil_append]

theorem readExact_eq_none {n : ℕ} {cs : List (List α)} (h : cs.flatten.length < n) :
    readExact n cs = none := by
  induction cs generalizing n with
  | nil =>
      cases n with
      | zero => exact absurd h (Nat.not_lt_zero _)
      | succ n => rfl
  | cons c cs ih =>
      cases n with
      | zero => exact absurd h (Nat.not_lt_zero _)
      | succ n =>
          rw [List.flatten_cons, List.length_append] at h
          rw [readExact, if_neg (by omega), ih (by omega), Option.map_none]

/-! ### Pulling chunks -/

theorem exists_pullTo {n : ℕ} {buf : List α} {cs : List (List α)}
    (h : n ≤ (buf ++ cs.flatten).length) :
    ∃ buf' rest, pullTo n buf cs = some (buf', rest) ∧
      buf' ++ rest.flatten = buf ++ cs.flatten ∧ n ≤ buf'.length := by
  induction cs generalizing buf with
  | nil =>
      rw [List.flatten_nil, List.append_nil] at h
      exact ⟨buf, [], if_neg (Nat.not_lt.mpr h), rfl, h⟩
  | cons c cs ih =>
      rw [pullTo]
      split_ifs with hlen
      · rw [List.flatten_cons, ← List.append_assoc] at h ⊢
        exact ih h
      · exact ⟨buf, c :: cs, rfl, rfl, Nat.not_lt.mp hlen⟩

theorem pullTo_eq_none {n : ℕ} {buf : List α} {cs : List (List α)}
    (h : (buf ++ cs.flatten).length < n) : pullTo n buf cs = none := by
  induction cs generalizing buf with
  | nil =>
      rw [List.flatten_nil, List.append_nil] at h
      exact if_pos h
  | cons c cs ih =>
      rw [List.flatten_cons, ← List.append_assoc] at h
      have hlen : buf.length < n := by
        rw [List.append_assoc, List.length_append] at h
        omega
      rw [pullTo, if_pos hlen, ih h]

end Chunks
