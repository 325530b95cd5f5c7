import Mathlib.Data.List.Basic

/-! # Sequences that are read element by element

A reader of a sequence does not see it as a whole: it asks a source for the next element, and the source
answers with one, with none at the end, or fails.  `fill` sets the slots of an array one after another to
what the source answers.

`Yields` says which elements a source gives one after another.  The rule for `fill` is `fill_eq_ok_iff`:
it ends well exactly if the source yields as many elements as there are slots, and then these are in the
slots, in order, and the source stands right behind them.  What the source has left is not looked at. -/

namespace SeqAccess

variable {α σ ε : Type*} {n : ℕ}

/-- Set slot `i` to the next element. -/
def fillSlot (next : σ → Except ε (Option α × σ)) (missing : ℕ → ε) (acc : Vector α n × σ) (i : ℕ) :
    Except ε (Vector α n × σ) :=
  match next acc.2 with
  | .error e => .error e
  | .ok (none, _) => .error (missing i)
  | .ok (some x, s) => .ok (acc.1.setIfInBounds i x, s)

/-- Set all slots, from the first to the last; `missing i` if there is no element for slot `i`. -/
def fill (next : σ → Except ε (Option α × σ)) (missing : ℕ → ε) (out : Vector α n) (s : σ) :
    Except ε (Vector α n × σ) :=
  (List.range n).foldlM (fillSlot next missing) (out, s)

/-- The source of the elements of a list. -/
def pop : List α → Except ε (Option α × List α)
  | [] => .ok (none, [])
  | x :: xs => .ok (some x, xs)

/-- The source gives the elements of a list and then stands at the second state. -/
inductive Yields (next : σ → Except ε (Option α × σ)) : σ → List α → σ → Prop
  | nil (s : σ) : Yields next s [] s
  | cons {s s' s'' : σ} {x : α} {xs : List α} (h : next s = .ok (some x, s')) (hs : Yields next s' xs s'') :
      Yields next s (x :: xs) s''

theorem yields_pop {xs ys rest : List α} : Yields (pop (ε := ε)) xs ys rest ↔ xs = ys ++ rest := by
  constructor
  · intro h
    induction h with
    | nil => rfl
    | @cons s s' s'' x xs h _ ih =>
        cases s with
        | nil => cases h
        | cons y ys =>
            cases h
            rw [ih, List.cons_append]
  · rintro rfl
    induction ys with
    | nil => exact .nil rest
    | cons y ys ih => exact .cons rfl ih

section

variable {next : σ → Except ε (Option α × σ)} {missing : ℕ → ε}

theorem fillSlot_eq_ok_iff {out out' : Vector α n} {s s' : σ} {i : ℕ} :
    fillSlot next missing (out, s) i = .ok (out', s') ↔
      ∃ x, next s = .ok (some x, s') ∧ out' = out.setIfInBounds i x := by
  unfold fillSlot
  dsimp only
  cases next s with
  | error e => simp
  | ok answer =>
      obtain ⟨_ | x, s₁⟩ := answer
      · simp
      · constructor
        · intro h
          cases h
          exact ⟨x, rfl, rfl⟩
        · rintro ⟨y, hy, rfl⟩
          cases hy
          rfl

/-- Setting slot `i` adds to the slots that are done. -/
theorem toList_setIfInBounds (out : Vector α n) {i m : ℕ} (hi : i < n) (x : α) (xs : List α) :
    (out.setIfInBounds i x).toList.take (i + 1) ++ xs ++ (out.setIfInBounds i x).toList.drop (i + 1 + m) =
      out.toList.take i ++ (x :: xs) ++ out.toList.drop (i + (m + 1)) := by
  have hlen : i < out.toList.length := by rwa [Vector.length_toList]
  rw [Vector.toList_setIfInBounds, List.drop_set_of_lt (by omega), Nat.add_right_comm, Nat.add_assoc,
    List.take_succ_eq_append_getElem (by rwa [List.length_set]), List.getElem_set_self,
    List.take_set_of_le (Nat.le_refl i)]
  simp

/-- The loop over the slots from `i` on. -/
theorem foldlM_fillSlot {m i : ℕ} {out out' : Vector α n} {s s' : σ} (him : i + m ≤ n) :
    (List.range' i m).foldlM (fillSlot next missing) (out, s) = .ok (out', s') ↔
      ∃ xs, Yields next s xs s' ∧ xs.length = m ∧
        out'.toList = out.toList.take i ++ xs ++ out.toList.drop (i + m) := by
  induction m generalizing i out s with
  | zero =>
      constructor
      · intro h
        cases h
        exact ⟨[], .nil _, rfl, by simp⟩
      · rintro ⟨xs, hxs, hlen, hout⟩
        obtain rfl := List.length_eq_zero_iff.mp hlen
        cases hxs
        rw [List.append_nil, Nat.add_zero, List.take_append_drop] at hout
        rw [Vector.toList_inj.mp hout]
        rfl
  | succ m ih =>
      rw [List.range'_succ, List.foldlM_cons]
      constructor
      · intro h
        cases hslot : fillSlot next missing (out, s) i with
        | error e => rw [hslot] at h; cases h
        | ok acc =>
            obtain ⟨out₁, s₁⟩ := acc
            rw [hslot] at h
            obtain ⟨x, hx, rfl⟩ := fillSlot_eq_ok_iff.mp hslot
            obtain ⟨xs, hxs, hlen, hout⟩ := (ih (by omega)).mp h
            refine ⟨x :: xs, .cons hx hxs, congrArg (· + 1) hlen, ?_⟩
            rw [hout, toList_setIfInBounds out (by omega)]
      · rintro ⟨_ | ⟨x, xs⟩, hyields, hlen, hout⟩
        · cases hlen
        · cases hyields with
          | cons hx hxs =>
              rw [fillSlot_eq_ok_iff.mpr ⟨x, hx, rfl⟩]
              refine (ih (by omega)).mpr ⟨xs, hxs, Nat.succ.inj hlen, ?_⟩
              rw [hout, toList_setIfInBounds out (by omega)]

/-- **All slots are filled if and only if the source yields an element for each.** -/
theorem fill_eq_ok_iff {out out' : Vector α n} {s s' : σ} :
    fill next missing out s = .ok (out', s') ↔ Yields next s out'.toList s' := by
  have hdrop : out.toList.drop (0 + n) = [] := List.drop_eq_nil_of_le (by simp)
  rw [fill, List.range_eq_range', foldlM_fillSlot (by omega), hdrop]
  simp only [List.take_zero, List.nil_append, List.append_nil]
  constructor
  · rintro ⟨xs, hxs, -, hout⟩
    rwa [hout]
  · intro h
    exact ⟨_, h, out'.length_toList, rfl⟩

end

end SeqAccess
