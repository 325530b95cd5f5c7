import Mathlib.Tactic.Ring

/-! # Computations on offsets

The body of a function that moves offsets over a list, on a machine whose words have `width` bits.  An
index or a slice can be out of bounds and an addition can pass the largest word; a computation records
each such operation that it evaluates, with its operands, before it does what the operation does.  So
its trace has every operation up to the point where the computation ends, and `Access.Ok` says of each
whether it was defined.

An addition that is not checked panics if it passes the largest word, and a checked one has no value.
Besides with a panic a computation may end with a return from the function; a loop is a recursion with
a number of rounds, and a computation that uses up all of them is told apart from one that ends.

The rules are those of `Ends width m out`: all operations of `m` are defined, and `m` ends with the
value or with the return that `out` has.  There is one for each operation, one for a sequence
(`Ends.bind`), and one for a sequence after a call whose answer may be missing (`Ends.bind_orReturn`). -/

namespace CheckedExec

/-- An operation that is not defined for all operands. -/
inductive Access where
  | index (len i : ℕ)
  | slice (len start stop : ℕ)
  | add (a b : ℕ)
deriving Repr, DecidableEq

/-- The operation is defined: in bounds, or at most the largest word. -/
def Access.Ok (width : ℕ) : Access → Prop
  | index len i => i < len
  | slice len start stop => start ≤ stop ∧ stop ≤ len
  | add a b => a + b < 2 ^ width

instance (width : ℕ) : (a : Access) → Decidable (a.Ok width)
  | .index len i => inferInstanceAs (Decidable (i < len))
  | .slice len start stop => inferInstanceAs (Decidable (start ≤ stop ∧ stop ≤ len))
  | .add a b => inferInstanceAs (Decidable (a + b < 2 ^ width))

/-- Why a computation has no value. -/
inductive Stop (ρ : Type) where
  | panicked
  | outOfFuel
  | returned (r : ρ)
deriving Repr, DecidableEq

/-- A computation in the body of a function that returns a `ρ`. -/
structure Exec (ρ α : Type) where
  trace : List Access
  result : Except (Stop ρ) α

variable {ρ α β : Type} {width : ℕ}

/-- A sequence: the second part goes on where the first has a value. -/
def Exec.bind (m : Exec ρ α) (f : α → Exec ρ β) : Exec ρ β :=
  match m.result with
  | .ok a => ⟨m.trace ++ (f a).trace, (f a).result⟩
  | .error stop => ⟨m.trace, .error stop⟩

instance : Monad (Exec ρ) where
  pure a := ⟨[], .ok a⟩
  bind := Exec.bind

namespace Exec

/-- A return from the function. -/
def ret (r : ρ) : Exec ρ α := ⟨[], .error (.returned r)⟩

/-- A loop without a round left. -/
def outOfFuel : Exec ρ α := ⟨[], .error .outOfFuel⟩

/-- `a + b`. -/
def add (width a b : ℕ) : Exec ρ ℕ :=
  ⟨[.add a b], if a + b < 2 ^ width then .ok (a + b) else .error .panicked⟩

/-- `a.checked_add(b)`. -/
def checkedAdd (width a b : ℕ) : Exec ρ (Option ℕ) :=
  ⟨[.add a b], .ok (if a + b < 2 ^ width then some (a + b) else none)⟩

/-- `l[i]`. -/
def index (l : List β) (i : ℕ) : Exec ρ β :=
  ⟨[.index l.length i], match l[i]? with
    | some v => .ok v
    | none => .error .panicked⟩

/-- `&l[start..stop]`. -/
def slice (l : List β) (start stop : ℕ) : Exec ρ (List β) :=
  ⟨[.slice l.length start stop],
    if start ≤ stop ∧ stop ≤ l.length then .ok ((l.drop start).take (stop - start))
    else .error .panicked⟩

/-- `m?`: a missing value is returned as such. -/
def orReturn (m : Exec (Option ρ) (Option α)) : Exec (Option ρ) α := do
  match ← m with
  | some a => pure a
  | none => ret none

/-- What a function returns whose body is `m`, unless it panics or goes on. -/
def answer (m : Exec ρ ρ) : Option ρ :=
  match m.result with
  | .ok r => some r
  | .error (.returned r) => some r
  | .error _ => none

end Exec

/-- All operations of `m` are defined, and it ends with a value or with a return. -/
structure Ends (width : ℕ) (m : Exec ρ α) (out : Except ρ α) : Prop where
  trace : ∀ a ∈ m.trace, a.Ok width
  result : m.result = out.mapError Stop.returned

open Exec

theorem ends_pure (a : α) : Ends width (pure a : Exec ρ α) (.ok a) where
  trace := by intro x hx; exact absurd hx List.not_mem_nil
  result := rfl

theorem ends_ret (r : ρ) : Ends width (ret r : Exec ρ α) (.error r) where
  trace := by intro x hx; exact absurd hx List.not_mem_nil
  result := rfl

theorem ends_add {a b : ℕ} (h : a + b < 2 ^ width) :
    Ends width (add width a b : Exec ρ ℕ) (.ok (a + b)) where
  trace := by
    intro x hx
    obtain rfl := List.mem_singleton.mp hx
    exact h
  result := if_pos h

theorem ends_checkedAdd {a b : ℕ} (h : a + b < 2 ^ width) :
    Ends width (checkedAdd width a b : Exec ρ (Option ℕ)) (.ok (some (a + b))) where
  trace := by
    intro x hx
    obtain rfl := List.mem_singleton.mp hx
    exact h
  result := congrArg Except.ok (if_pos h)

theorem ends_index {l : List β} {i : ℕ} (h : i < l.length) :
    Ends width (index l i : Exec ρ β) (.ok l[i]) where
  trace := by
    intro x hx
    obtain rfl := List.mem_singleton.mp hx
    exact h
  result := by
    rw [index, List.getElem?_eq_getElem h]
    rfl

theorem ends_slice {l : List β} {start stop : ℕ} (h : start ≤ stop ∧ stop ≤ l.length) :
    Ends width (slice l start stop : Exec ρ (List β)) (.ok ((l.drop start).take (stop - start))) where
  trace := by
    intro x hx
    obtain rfl := List.mem_singleton.mp hx
    exact h
  result := if_pos h

section

variable {m : Exec ρ α} {f : α → Exec ρ β}

/-- A sequence whose first part has a value. -/
theorem Ends.bind {a : α} {out : Except ρ β} (hm : Ends width m (.ok a)) (hf : Ends width (f a) out) :
    Ends width (m >>= f) out := by
  have hbind : m >>= f = ⟨m.trace ++ (f a).trace, (f a).result⟩ := by
    change Exec.bind m f = _
    rw [Exec.bind, hm.result]
    rfl
  rw [hbind]
  refine ⟨?_, hf.result⟩
  intro x hx
  obtain hx | hx := List.mem_append.mp hx
  · exact hm.trace x hx
  · exact hf.trace x hx

/-- A sequence whose first part returns. -/
theorem Ends.bind_error {r : ρ} (hm : Ends width m (.error r)) : Ends width (m >>= f) (.error r) := by
  have hbind : m >>= f = ⟨m.trace, .error (.returned r)⟩ := by
    change Exec.bind m f = _
    rw [Exec.bind, hm.result]
    rfl
  rw [hbind]
  exact ⟨hm.trace, rfl⟩

end

section

variable {m : Exec (Option ρ) (Option α)} {f : α → Exec (Option ρ) β}

/-- The way a computation ends that returns if its value is missing. -/
def orNone : Option α → Except (Option ρ) α
  | some a => .ok a
  | none => .error none

theorem Ends.orReturn {x : Option α} (hm : Ends width m (.ok x)) : Ends width m.orReturn (orNone x) := by
  cases x with
  | none => exact hm.bind (ends_ret none)
  | some a => exact hm.bind (ends_pure a)

/-- A sequence after a call whose answer may be missing. -/
theorem Ends.bind_orReturn {x : Option α} {out : Except (Option ρ) β} (hm : Ends width m (.ok x))
    (hnone : x = none → out = .error none) (hsome : ∀ a, x = some a → Ends width (f a) out) :
    Ends width (m.orReturn >>= f) out := by
  cases x with
  | none => exact hnone rfl ▸ hm.orReturn.bind_error
  | some a => exact hm.orReturn.bind (hsome a rfl)

theorem Ends.bind_orNone {x : Option α} {g : α → Option β} (hm : Ends width m (.ok x))
    (hf : ∀ a, x = some a → Ends width (f a) (orNone (g a))) :
    Ends width (m.orReturn >>= f) (orNone (x >>= g)) := by
  apply hm.bind_orReturn
  · rintro rfl
    rfl
  · rintro a rfl
    exact hf a rfl

/-- A return of nothing under a condition. -/
theorem Ends.guard {c : Prop} [Decidable c] {m : Exec (Option ρ) α} {x : Option α}
    (h : ¬ c → Ends width m (orNone x)) :
    Ends width (if c then ret none else m) (orNone (if c then none else x)) := by
  by_cases hc : c
  · rw [if_pos hc, if_pos hc]
    exact ends_ret none
  · rw [if_neg hc, if_neg hc]
    exact h hc

end

/-- The answer of a body that ends with a return. -/
theorem Ends.answer_eq {m : Exec ρ ρ} {r : ρ} (h : Ends width m (.error r)) : m.answer = some r := by
  rw [answer, h.result]
  rfl

end CheckedExec
