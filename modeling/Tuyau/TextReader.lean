import Mathlib.Data.List.Basic

/-! # Readers of text

A reader takes a value off the front of a text, or fails and takes nothing.  Two readers in a row are
`>>=`, and `<|>` tries the second one on the text that the first one has failed on.

`Reads P r t a` says that `r` reads `a` off the text `t` and leaves what is behind it alone, as long as
that is in `P`: a number goes on until the first character that is no digit, so what follows it must not
start with one.  The rules for `>>=` and `<|>` put such facts together, and `reads_number` is the one they
start from: a number written with `Nat.toDigits` is read back. -/

namespace TextReader

variable {α β : Type}

abbrev Reader (α : Type) := StateT (List Char) Option α

/-! ### Characters and digits -/

/-- Read the given character. -/
def char (c : Char) : Reader Unit
  | [] => none
  | x :: rest => if x = c then some ((), rest) else none

/-- The value of a letter or digit. -/
def digitValue (c : Char) : Option ℕ :=
  if 48 ≤ c.toNat ∧ c.toNat ≤ 57 then some (c.toNat - 48)
  else if 97 ≤ c.toNat ∧ c.toNat ≤ 122 then some (c.toNat - 87)
  else if 65 ≤ c.toNat ∧ c.toNat ≤ 90 then some (c.toNat - 55)
  else none

def toDigit (radix : ℕ) (c : Char) : Option ℕ :=
  match digitValue c with
  | some d => if d < radix then some d else none
  | none => none

/-- Read digits to the last one, adding up their value and their number, and fail as soon as these are not
`ok`. -/
def digits (radix : ℕ) (ok : ℕ → ℕ → Bool) : (value count : ℕ) → Reader (ℕ × ℕ)
  | value, count, [] => some ((value, count), [])
  | value, count, c :: rest =>
      match toDigit radix c with
      | none => some ((value, count), c :: rest)
      | some d =>
          if ok (value * radix + d) (count + 1) then digits radix ok (value * radix + d) (count + 1) rest
          else none

/-- Read a number below `bound`, with digits that are `ok` and, unless `zeroes`, with no zero before
another digit. -/
def number (radix : ℕ) (ok : ℕ → ℕ → Bool) (zeroes : Bool) (bound : ℕ) : Reader ℕ := fun t =>
  match digits radix ok 0 0 t with
  | none => none
  | some ((value, count), rest) =>
      if count = 0 then none
      else if !zeroes && t.head? = some '0' && decide (1 < count) then none
      else if value < bound then some (value, rest)
      else none

/-! ### What a reader reads -/

/-- `r` reads `a` off `t` and nothing behind it, if what follows is in `P`. -/
def Reads (P : List Char → Prop) (r : Reader α) (t : List Char) (a : α) : Prop :=
  ∀ rest, P rest → r (t ++ rest) = some (a, rest)

/-- A text that does not start with a digit. -/
def Digitless (radix : ℕ) (t : List Char) : Prop := ∀ c, t.head? = some c → toDigit radix c = none

variable {P Q : List Char → Prop} {r s : Reader α} {t u : List Char} {a : α}

theorem Reads.bind {k : α → Reader β} {b : β} (hr : Reads Q r t a) (hk : Reads P (k a) u b)
    (hQ : ∀ rest, P rest → Q (u ++ rest)) : Reads P (r >>= k) (t ++ u) b := by
  intro rest hrest
  change (r (t ++ u ++ rest)).bind (fun p => k p.1 p.2) = _
  rw [List.append_assoc, hr _ (hQ rest hrest), Option.bind_some]
  exact hk rest hrest

theorem reads_pure (a : α) : Reads P (pure a) [] a := fun _ _ => rfl

theorem Reads.map {f : α → β} (hr : Reads P r t a) : Reads P (r >>= fun x => pure (f x)) t (f a) := by
  have h := hr.bind (k := fun x => pure (f x)) (reads_pure (P := P) (f a)) fun _ hrest => hrest
  rwa [List.append_nil] at h

theorem Reads.mono (hr : Reads P r t a) (h : ∀ rest, Q rest → P rest) : Reads Q r t a :=
  fun rest hrest => hr rest (h rest hrest)

theorem reads_char (c : Char) : Reads P (char c) [c] () := by
  intro rest _
  exact if_pos rfl

theorem Reads.or_left (hr : Reads P r t a) : Reads P (r <|> s) t a := by
  intro rest hrest
  change (r (t ++ rest)).orElse (fun _ => s (t ++ rest)) = _
  rw [hr rest hrest]
  rfl

theorem Reads.or_right (hr : ∀ rest, P rest → r (t ++ rest) = none) (hs : Reads P s t a) :
    Reads P (r <|> s) t a := by
  intro rest hrest
  change (r (t ++ rest)).orElse (fun _ => s (t ++ rest)) = _
  rw [hr rest hrest]
  exact hs rest hrest

theorem bind_eq_none {k : α → Reader β} (h : r t = none) : (r >>= k) t = none := by
  change (r t).bind (fun p => k p.1 p.2) = none
  rw [h, Option.bind_none]

theorem char_eq_none {c : Char} (h : t.head? ≠ some c) : char c t = none := by
  cases t with
  | nil => rfl
  | cons x rest => exact if_neg fun hx => h (congrArg some hx)

/-! ### Numbers -/

section

variable {radix n : ℕ} {ok : ℕ → ℕ → Bool}

theorem toDigit_digitChar (hradix : radix ≤ 16) {d : ℕ} (hd : d < radix) :
    toDigit radix (Nat.digitChar d) = some d := by
  have hvalue : ∀ d < 16, digitValue (Nat.digitChar d) = some d := by decide
  rw [toDigit, hvalue d (by omega)]
  exact if_pos hd

/-- The digits of a number are read with it. -/
theorem digits_toDigits (h1 : 1 < radix) (h16 : radix ≤ 16)
    (hok : ∀ v ≤ n, ∀ k ≤ (Nat.toDigits radix n).length, ok v k = true) (rest : List Char) :
    digits radix ok 0 0 (Nat.toDigits radix n ++ rest) =
      digits radix ok n (Nat.toDigits radix n).length rest := by
  induction n using Nat.strongRecOn generalizing rest with
  | ind n ih =>
      rw [Nat.toDigits_eq_if h1] at hok ⊢
      split_ifs at hok ⊢ with hn
      · rw [List.singleton_append, digits, toDigit_digitChar h16 hn]
        dsimp only
        rw [Nat.zero_mul, Nat.zero_add, Nat.zero_add, hok n (Nat.le_refl _) 1 (Nat.le_refl _), if_pos rfl]
        rfl
      · have hdiv : n / radix < n := Nat.div_lt_self (by omega) h1
        have hmod : n % radix < radix := Nat.mod_lt n (by omega)
        rw [List.length_append, List.length_singleton] at hok ⊢
        rw [List.append_assoc, ih (n / radix) hdiv fun v hv k hk => hok v (by omega) k (by omega),
          List.singleton_append, digits, toDigit_digitChar h16 hmod]
        dsimp only
        rw [Nat.div_add_mod', hok n (Nat.le_refl _) _ (Nat.le_refl _), if_pos rfl]

theorem digits_of_digitless (value count : ℕ) (h : Digitless radix t) :
    digits radix ok value count t = some ((value, count), t) := by
  cases t with
  | nil => rfl
  | cons c rest => rw [digits, h c rfl]

/-- Only zero starts with a zero. -/
theorem eq_zero_of_head_toDigits (h1 : 1 < radix) (h16 : radix ≤ 16)
    (h : (Nat.toDigits radix n).head? = some '0') : n = 0 := by
  have hzero : ∀ d < 16, Nat.digitChar d = '0' → d = 0 := by decide
  induction n using Nat.strongRecOn with
  | ind n ih =>
      rw [Nat.toDigits_eq_if h1] at h
      split_ifs at h with hn
      · exact hzero n (by omega) (Option.some.inj h)
      · rw [List.head?_append_of_ne_nil _ Nat.toDigits_ne_nil] at h
        have hdiv := ih (n / radix) (Nat.div_lt_self (by omega) h1) h
        rw [Nat.div_eq_zero_iff] at hdiv
        omega

/-- A number is read back from its digits, up to the first character that is none. -/
theorem reads_number (h1 : 1 < radix) (h16 : radix ≤ 16) {zeroes : Bool} {bound : ℕ}
    (hok : ∀ v ≤ n, ∀ k ≤ (Nat.toDigits radix n).length, ok v k = true) (hbound : n < bound) :
    Reads (Digitless radix) (number radix ok zeroes bound) (Nat.toDigits radix n) n := by
  intro rest hrest
  have hpos : 0 < (Nat.toDigits radix n).length := Nat.length_toDigits_pos
  have hzeroes : ¬ ((Nat.toDigits radix n ++ rest).head? = some '0' ∧ 1 < (Nat.toDigits radix n).length) := by
    rintro ⟨hhead, hlen⟩
    rw [List.head?_append_of_ne_nil _ Nat.toDigits_ne_nil] at hhead
    rw [eq_zero_of_head_toDigits h1 h16 hhead, Nat.toDigits_zero] at hlen
    exact absurd hlen (by decide)
  rw [number, digits_toDigits h1 h16 hok, digits_of_digitless _ _ hrest]
  dsimp only
  rw [if_neg (by omega), if_neg, if_pos hbound]
  simp only [Bool.and_eq_true, decide_eq_true_eq]
  exact fun h => hzeroes ⟨h.1.2, h.2⟩

theorem number_of_digitless {zeroes : Bool} {bound : ℕ} (h : Digitless radix t) :
    number radix ok zeroes bound t = none := by
  rw [number, digits_of_digitless _ _ h]
  exact if_pos rfl

/-- What digits leave is the text without them. -/
theorem rest_of_digits {value count : ℕ} {p : ℕ × ℕ} {rest : List Char}
    (h : digits radix ok value count t = some (p, rest)) :
    rest = t.dropWhile fun c => (toDigit radix c).isSome := by
  induction t generalizing value count with
  | nil =>
      cases h
      rfl
  | cons c t ih =>
      rw [digits] at h
      cases hd : toDigit radix c with
      | none =>
          rw [hd] at h
          cases h
          rw [List.dropWhile_cons_of_neg (by simp [hd])]
      | some d =>
          rw [hd] at h
          rw [List.dropWhile_cons_of_pos (by simp [hd])]
          exact ih (Option.ite_none_right_eq_some.mp h).2

theorem rest_of_number {zeroes : Bool} {bound value : ℕ} {rest : List Char}
    (h : number radix ok zeroes bound t = some (value, rest)) :
    rest = t.dropWhile fun c => (toDigit radix c).isSome := by
  rw [number] at h
  cases hd : digits radix ok 0 0 t with
  | none =>
      rw [hd] at h
      cases h
  | some q =>
      obtain ⟨p, rest'⟩ := q
      rw [hd] at h
      dsimp only at h
      split_ifs at h
      cases h
      exact rest_of_digits hd

/-- A character that the text of a number does not have is not what the number ends at. -/
theorem head_of_number {zeroes : Bool} {bound value : ℕ} {l rest : List Char} {c : Char} (hl : c ∉ l)
    (ht : Digitless radix t) (hc : t.head? ≠ some c)
    (h : number radix ok zeroes bound (l ++ t) = some (value, rest)) : rest.head? ≠ some c := by
  rw [rest_of_number h]
  clear h
  induction l with
  | nil =>
      cases t with
      | nil => exact hc
      | cons d t =>
          rw [List.nil_append, List.dropWhile_cons_of_neg (by simp [ht d rfl])]
          exact hc
  | cons d l ih =>
      rw [List.mem_cons, not_or] at hl
      rw [List.cons_append, List.dropWhile_cons]
      split_ifs
      · exact ih hl.2
      · exact fun h => hl.1 (Option.some.inj h).symm

theorem Digitless.mono {radix' : ℕ} (hle : radix' ≤ radix) (h : Digitless radix t) : Digitless radix' t := by
  intro c hc
  have hnone := h c hc
  unfold toDigit at hnone ⊢
  cases hd : digitValue c with
  | none => rfl
  | some d =>
      rw [hd] at hnone
      dsimp only at hnone ⊢
      split_ifs at hnone with hlt
      exact if_neg (by omega)

end

end TextReader
