import Mathlib.Data.List.Basic
import Mathlib.Data.List.TakeWhile

/-! # Base64 and PEM sections

The textual form of a binary object: a line that begins the section, the object in base64 on lines of 64
digits, and a line that ends it.  A reader needs the section up to the last character of its end mark and
nothing after that, so that a file is read if and only if it was cut behind this point: `first_take` and
`first_cut`. -/

namespace PemText

/-! ### Base64 -/

/-- The digit of a number below 64. -/
def digit (n : ℕ) : UInt8 :=
  UInt8.ofNat (if n < 26 then n + 65 else if n < 52 then n + 71 else if n < 62 then n - 4
    else if n = 62 then 43 else 47)

def value (c : UInt8) : Option ℕ :=
  let n := c.toNat
  if 65 ≤ n ∧ n ≤ 90 then some (n - 65)
  else if 97 ≤ n ∧ n ≤ 122 then some (n - 71)
  else if 48 ≤ n ∧ n ≤ 57 then some (n + 4)
  else if n = 43 then some 62
  else if n = 47 then some 63
  else none

/-- `=`, for the digits that the last group lacks. -/
def padding : UInt8 := 0x3d

/-- Three bytes are four digits. -/
def encode64 : List UInt8 → List UInt8
  | [] => []
  | [a] => [digit (a.toNat / 4), digit (a.toNat % 4 * 16), padding, padding]
  | [a, b] =>
      [digit (a.toNat / 4), digit (a.toNat % 4 * 16 + b.toNat / 16), digit (b.toNat % 16 * 4), padding]
  | a :: b :: c :: rest =>
      digit (a.toNat / 4) :: digit (a.toNat % 4 * 16 + b.toNat / 16) ::
        digit (b.toNat % 16 * 4 + c.toNat / 64) :: digit (c.toNat % 64) :: encode64 rest

def decode64 : List UInt8 → Option (List UInt8)
  | [] => some []
  | w :: x :: y :: z :: rest => do
      let w ← value w
      let x ← value x
      if z = padding ∧ rest = [] then
        if y = padding then some [UInt8.ofNat (w * 4 + x / 16)]
        else
          let y ← value y
          some [UInt8.ofNat (w * 4 + x / 16), UInt8.ofNat (x % 16 * 16 + y / 4)]
      else
        let y ← value y
        let z ← value z
        let bytes ← decode64 rest
        some (UInt8.ofNat (w * 4 + x / 16) :: UInt8.ofNat (x % 16 * 16 + y / 4) ::
          UInt8.ofNat (y % 4 * 64 + z) :: bytes)
  | _ => none

/-! ### Sections -/

def newline : UInt8 := 0x0a

def dash : UInt8 := 0x2d

def ascii (t : List Char) : List UInt8 := t.map fun c => UInt8.ofNat c.toNat

/-- Break a text into lines; there is room for so much on the first. -/
def lines (width : ℕ) : ℕ → List UInt8 → List UInt8
  | room, [] => if room < width then [newline] else []
  | 0, c :: text => newline :: c :: lines width (width - 1) text
  | room + 1, c :: text => c :: lines width room text

variable (label : List Char)

def beginMark : List UInt8 := ascii ("-----BEGIN ".toList ++ label ++ "-----\n".toList)

def endMark : List UInt8 := ascii ("-----END ".toList ++ label ++ "-----".toList)

/-- A section up to its end mark. -/
def core (object : List UInt8) : List UInt8 :=
  beginMark label ++ (lines 64 64 (encode64 object) ++ endMark label)

def encode (object : List UInt8) : List UInt8 := core label object ++ [newline]

inductive Failure where
  | missingSectionEnd
  | base64Decode
deriving DecidableEq

/-- Read a section of which the first line is read. -/
def readBody (rest : List UInt8) : Except Failure (List UInt8) :=
  if (endMark label).isPrefixOf (rest.dropWhile (· ≠ dash)) then
    match decode64 ((rest.takeWhile (· ≠ dash)).filter (· ≠ newline)) with
    | some object => .ok object
    | none => .error .base64Decode
  else .error .missingSectionEnd

/-- Read the section with which a file begins. -/
def first (file : List UInt8) : Option (Except Failure (List UInt8)) :=
  if (beginMark label).isPrefixOf file then some (readBody label (file.drop (beginMark label).length)) else none

/-! ### What is written is read -/

theorem value_digit {n : ℕ} (h : n < 64) : value (digit n) = some n := by
  have hall : ∀ n < 64, value (digit n) = some n := by decide
  exact hall n h

theorem digit_ne {n : ℕ} (h : n < 64) : digit n ≠ padding ∧ digit n ≠ newline ∧ digit n ≠ dash := by
  have hall : ∀ n < 64, digit n ≠ padding ∧ digit n ≠ newline ∧ digit n ≠ dash := by decide
  exact hall n h

theorem ofNat_eq {n : ℕ} (a : UInt8) (h : n = a.toNat) : UInt8.ofNat n = a := by
  rw [h, UInt8.ofNat_toNat]

theorem decode64_encode64 (bytes : List UInt8) : decode64 (encode64 bytes) = some bytes := by
  fun_induction encode64 bytes with
  | case1 => rfl
  | case2 a =>
      have ha := a.toNat_lt
      rw [decode64, value_digit (by omega), value_digit (by omega)]
      simp only [Option.bind_eq_bind, Option.bind_some, and_self, if_true]
      rw [ofNat_eq a (by omega)]
  | case3 a b =>
      have ha := a.toNat_lt
      have hb := b.toNat_lt
      have hy : b.toNat % 16 * 4 < 64 := by omega
      rw [decode64, value_digit (by omega), value_digit (by omega)]
      simp only [Option.bind_eq_bind, Option.bind_some, and_self, if_true, (digit_ne hy).1, if_false,
        value_digit hy]
      rw [ofNat_eq a (by omega), ofNat_eq b (by omega)]
  | case4 a b c rest ih =>
      have ha := a.toNat_lt
      have hb := b.toNat_lt
      have hc := c.toNat_lt
      have hz : c.toNat % 64 < 64 := by omega
      rw [decode64, value_digit (by omega), value_digit (by omega)]
      simp only [Option.bind_eq_bind, Option.bind_some, (digit_ne hz).1, false_and, if_false]
      rw [value_digit (by omega), value_digit hz, ih]
      simp only [Option.bind_some]
      rw [ofNat_eq a (by omega), ofNat_eq b (by omega), ofNat_eq c (by omega)]

theorem mem_encode64 {d : UInt8} {bytes : List UInt8} (h : d ∈ encode64 bytes) :
    d = padding ∨ ∃ n < 64, d = digit n := by
  fun_induction encode64 bytes with
  | case1 => cases h
  | case2 a =>
      have ha := a.toNat_lt
      simp only [List.mem_cons, List.not_mem_nil, or_false] at h
      rcases h with h | h | h | h
      · exact .inr ⟨_, by omega, h⟩
      · exact .inr ⟨_, by omega, h⟩
      · exact .inl h
      · exact .inl h
  | case3 a b =>
      have ha := a.toNat_lt
      have hb := b.toNat_lt
      simp only [List.mem_cons, List.not_mem_nil, or_false] at h
      rcases h with h | h | h | h
      · exact .inr ⟨_, by omega, h⟩
      · exact .inr ⟨_, by omega, h⟩
      · exact .inr ⟨_, by omega, h⟩
      · exact .inl h
  | case4 a b c rest ih =>
      have ha := a.toNat_lt
      have hb := b.toNat_lt
      have hc := c.toNat_lt
      simp only [List.mem_cons] at h
      rcases h with h | h | h | h | h
      · exact .inr ⟨_, by omega, h⟩
      · exact .inr ⟨_, by omega, h⟩
      · exact .inr ⟨_, by omega, h⟩
      · exact .inr ⟨_, by omega, h⟩
      · exact ih h

theorem not_mem_encode64 (bytes : List UInt8) : newline ∉ encode64 bytes ∧ dash ∉ encode64 bytes := by
  constructor
  · intro h
    rcases mem_encode64 h with h | ⟨n, hn, h⟩
    · cases h
    · exact (digit_ne hn).2.1 h.symm
  · intro h
    rcases mem_encode64 h with h | ⟨n, hn, h⟩
    · cases h
    · exact (digit_ne hn).2.2 h.symm

theorem filter_lines {width room : ℕ} {text : List UInt8} (h : newline ∉ text) :
    (lines width room text).filter (· ≠ newline) = text := by
  fun_induction lines width room text with
  | case1 => rfl
  | case2 => rfl
  | case3 c text ih =>
      rw [List.mem_cons, not_or] at h
      rw [List.filter_cons_of_neg (by decide), List.filter_cons_of_pos (by simpa using Ne.symm h.1), ih h.2]
  | case4 room c text ih =>
      rw [List.mem_cons, not_or] at h
      rw [List.filter_cons_of_pos (by simpa using Ne.symm h.1), ih h.2]

theorem mem_lines {width room : ℕ} {text : List UInt8} {c : UInt8} (h : c ∈ lines width room text) :
    c = newline ∨ c ∈ text := by
  fun_induction lines width room text with
  | case1 => exact .inl (List.mem_singleton.mp h)
  | case2 => cases h
  | case3 d text ih =>
      simp only [List.mem_cons] at h ⊢
      tauto
  | case4 room d text ih =>
      simp only [List.mem_cons] at h ⊢
      tauto

section

variable {label} {object : List UInt8}

theorem ne_dash_of_mem_lines {c : UInt8} (h : c ∈ lines 64 64 (encode64 object)) : c ≠ dash := by
  rintro rfl
  rcases mem_lines h with h | h
  · cases h
  · exact (not_mem_encode64 object).2 h

theorem endMark_eq_cons : ∃ rest, endMark label = dash :: rest := ⟨_, rfl⟩

theorem readBody_append (tail : List UInt8) :
    readBody label (lines 64 64 (encode64 object) ++ (endMark label ++ tail)) = .ok object := by
  have hbody : ∀ c ∈ lines 64 64 (encode64 object), decide (c ≠ dash) = true := fun c hc =>
    decide_eq_true (ne_dash_of_mem_lines hc)
  obtain ⟨rest, hrest⟩ := @endMark_eq_cons label
  have hdrop : (endMark label ++ tail).dropWhile (· ≠ dash) = endMark label ++ tail := by
    rw [hrest]
    rfl
  have htake : (endMark label ++ tail).takeWhile (· ≠ dash) = [] := by
    rw [hrest]
    rfl
  have hmark : endMark label <+: endMark label ++ tail := ⟨tail, rfl⟩
  rw [readBody, List.dropWhile_append_of_pos hbody, List.takeWhile_append_of_pos hbody, hdrop, htake,
    List.append_nil, if_pos (List.isPrefixOf_iff_prefix.mpr hmark), filter_lines (not_mem_encode64 object).1,
    decode64_encode64]

/-- What stands behind the end mark is not looked at. -/
theorem first_core (tail : List UInt8) : first label (core label object ++ tail) = some (.ok object) := by
  have hmark : beginMark label <+: core label object ++ tail := by
    rw [core, List.append_assoc]
    exact ⟨_, rfl⟩
  rw [first, if_pos (List.isPrefixOf_iff_prefix.mpr hmark), core, List.append_assoc, List.drop_left,
    List.append_assoc, readBody_append]

theorem first_take {done : ℕ} (h : (core label object).length ≤ done) :
    first label ((encode label object).take done) = some (.ok object) := by
  rw [encode, List.take_append, List.take_of_length_le h]
  exact first_core _

/-- Of an end mark that is cut too little is left. -/
theorem readBody_cut {n : ℕ} (object' : List UInt8)
    (h : n < (lines 64 64 (encode64 object) ++ endMark label).length) :
    readBody label ((lines 64 64 (encode64 object) ++ endMark label).take n) ≠ .ok object' := by
  have hbody : ∀ c ∈ (lines 64 64 (encode64 object)).take n, decide (c ≠ dash) = true := fun c hc =>
    decide_eq_true (ne_dash_of_mem_lines (List.mem_of_mem_take hc))
  have hend : ¬ (endMark label).isPrefixOf
      (((lines 64 64 (encode64 object) ++ endMark label).take n).dropWhile (· ≠ dash)) = true := by
    intro hend
    rw [List.take_append, List.dropWhile_append_of_pos hbody] at hend
    have hmark := (List.isPrefixOf_iff_prefix.mp hend).length_le
    have hleft := hmark.trans (List.dropWhile_sublist _).length_le
    obtain ⟨rest, hrest⟩ := @endMark_eq_cons label
    rw [List.length_append, hrest, List.length_cons] at h
    rw [List.length_take, hrest, List.length_cons] at hleft
    omega
  rw [readBody, if_neg hend]
  intro h
  cases h

/-- A section that is cut in its end mark or before is not read. -/
theorem first_cut {done : ℕ} (object' : List UInt8) (h : done < (core label object).length) :
    first label ((encode label object).take done) ≠ some (.ok object') := by
  rw [encode, List.take_append_of_le_length h.le, first]
  intro hfirst
  obtain ⟨hbegin, hbody⟩ := Option.ite_none_right_eq_some.mp hfirst
  have hlen := (List.isPrefixOf_iff_prefix.mp hbegin).length_le
  rw [List.length_take] at hlen
  rw [core, List.length_append] at h
  rw [core, List.take_append, List.take_of_length_le (by omega), List.drop_left] at hbody
  exact readBody_cut object' (by omega) (Option.some.inj hbody)

end

end PemText
