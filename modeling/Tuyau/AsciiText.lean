import Mathlib.Data.List.Basic
import Mathlib.Data.List.DropRight

/-! # Text and ASCII case

A string is the list of its characters.  `toAsciiLowercase` maps `A`–`Z` to `a`–`z` and
leaves every other character alone, `splitOnce` cuts a string at the first occurrence
of a character, and `trimEndMatches` drops the last characters as long as they are a given one.
A character below the letters is the lower-case form of itself only (`toLower_eq_iff`), so both
looking for it and trimming it commute with lower-casing. -/

namespace AsciiText

/-- A string, as its characters. -/
abbrev Text := List Char

/-- ASCII letters in lower case, every other character unchanged. -/
def toAsciiLowercase (t : Text) : Text := t.map Char.toLower

theorem toLower_toLower (c : Char) : c.toLower.toLower = c.toLower := by
  unfold Char.toLower
  split_ifs with h h'
  · have h₁ := UInt32.le_iff_toNat_le.mp h.1
    have h₂ := UInt32.le_iff_toNat_le.mp h'.2
    have h₃ := UInt32.le_iff_toNat_le.mp h.2
    rw [UInt32.toNat_add] at h₂
    simp at h₁ h₂ h₃
    omega
  · rfl
  · rfl

@[simp] theorem toAsciiLowercase_idem (t : Text) :
    toAsciiLowercase (toAsciiLowercase t) = toAsciiLowercase t := by
  unfold toAsciiLowercase
  rw [List.map_map]
  exact List.map_congr_left fun c _ => toLower_toLower c

/-- A character below the letters is the lower-case form of itself only. -/
theorem toLower_eq_iff {c d : Char} (hd : d.toNat < 65) : c.toLower = d ↔ c = d := by
  unfold Char.toLower
  split_ifs with h
  · have h₁ := UInt32.le_iff_toNat_le.mp h.1
    have h₂ := UInt32.le_iff_toNat_le.mp h.2
    simp at h₁ h₂
    constructor
    · rintro rfl
      rw [Char.toNat, UInt32.toNat_add] at hd
      simp at hd
      omega
    · rintro rfl
      omega
  · rfl

theorem mem_toAsciiLowercase {d : Char} (hd : d.toNat < 65) {t : Text} :
    d ∈ toAsciiLowercase t ↔ d ∈ t := by
  simp [toAsciiLowercase, toLower_eq_iff hd]

/-- The string without the characters `c` at its end. -/
def trimEndMatches (c : Char) (t : Text) : Text := t.rdropWhile (· = c)

theorem trimEndMatches_eq_self {c : Char} {t : Text} (h : t.getLast? ≠ some c) :
    trimEndMatches c t = t := by
  refine List.rdropWhile_eq_self_iff.mpr fun hne hlast => h ?_
  rw [List.getLast?_eq_some_getLast hne, decide_eq_true_eq.mp hlast]

theorem toAsciiLowercase_trimEndMatches {c : Char} (hc : c.toNat < 65) (t : Text) :
    toAsciiLowercase (trimEndMatches c t) = trimEndMatches c (toAsciiLowercase t) := by
  have hcomp : (fun d => decide (d = c)) ∘ Char.toLower = fun d => decide (d = c) := by
    funext d
    simp [toLower_eq_iff hc]
  unfold toAsciiLowercase trimEndMatches List.rdropWhile
  rw [← List.map_reverse, List.dropWhile_map, hcomp, List.map_reverse]

/-- The parts of a string before and after the first `c`, if it has one. -/
def splitOnce (c : Char) : Text → Option (Text × Text)
  | [] => none
  | d :: t => if d = c then some ([], t) else (splitOnce c t).map fun p => (d :: p.1, p.2)

end AsciiText
