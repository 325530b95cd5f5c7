import Tuyau.AsciiText

/-! # Socket addresses and their text

The address types of `std::net` and their `Display` forms: dotted decimal for IPv4, and for
IPv6 lower-case hexadecimal groups with the longest run of two or more zero groups written
`::` and IPv4-mapped addresses written `::ffff:a.b.c.d`.  `mem_toText` lists the characters of an
address and `count_toText` bounds its colons. -/

namespace Tuyau

open AsciiText

/-- `std::net::IpAddr`. -/
inductive IpAddr where
  | v4 (a b c d : UInt8)
  | v6 (segments : Vector UInt16 8)
deriving DecidableEq, Repr

/-- `std::net::SocketAddr`; an IPv6 one has the zone of a link-local address. -/
inductive SocketAddr where
  | v4 (a b c d : UInt8) (port : UInt16)
  | v6 (segments : Vector UInt16 8) (port : UInt16) (scopeId : UInt32)
deriving DecidableEq, Repr

namespace SocketAddr

def ip : SocketAddr → IpAddr
  | v4 a b c d _ => .v4 a b c d
  | v6 segments _ _ => .v6 segments

def port : SocketAddr → UInt16
  | v4 _ _ _ _ port => port
  | v6 _ port _ => port

end SocketAddr

namespace IpAddr

/-- A number in decimal. -/
def decimal (n : ℕ) : Text := Nat.toDigits 10 n

def dotted (a b c d : UInt8) : Text :=
  decimal a.toNat ++ '.' :: decimal b.toNat ++ '.' :: decimal c.toNat ++ '.' :: decimal d.toNat

/-- Groups in lower-case hexadecimal, separated by colons. -/
def groups : List UInt16 → Text
  | [] => []
  | [s] => Nat.toDigits 16 s.toNat
  | s :: rest => Nat.toDigits 16 s.toNat ++ ':' :: groups rest

/-- Start and length of the longest run of zeroes, the first one of several; `i` is the index
of the next segment and `cur` the run that ends before it. -/
def zeroRun : ℕ → List UInt16 → (cur longest : ℕ × ℕ) → ℕ × ℕ
  | _, [], _, longest => longest
  | i, s :: rest, cur, longest =>
      if s = 0 then
        let cur := if cur.2 = 0 then (i, 1) else (cur.1, cur.2 + 1)
        zeroRun (i + 1) rest cur (if longest.2 < cur.2 then cur else longest)
      else zeroRun (i + 1) rest (0, 0) longest

/-- The octets of an IPv4-mapped IPv6 address. -/
def toIpv4Mapped (s : List UInt16) : Option (UInt8 × UInt8 × UInt8 × UInt8) :=
  match s with
  | [0, 0, 0, 0, 0, 0xffff, ab, cd] =>
      some ((ab >>> 8).toUInt8, ab.toUInt8, (cd >>> 8).toUInt8, cd.toUInt8)
  | _ => none

/-- `Display` of an address. -/
def toText : IpAddr → Text
  | v4 a b c d => dotted a b c d
  | v6 segments =>
      let s := segments.toList
      match toIpv4Mapped s with
      | some (a, b, c, d) => [':', ':', 'f', 'f', 'f', 'f', ':'] ++ dotted a b c d
      | none =>
          let z := zeroRun 0 s (0, 0) (0, 0)
          if 1 < z.2 then groups (s.take z.1) ++ [':', ':'] ++ groups (s.drop (z.1 + z.2))
          else groups s

/-- `to_canonical`: an IPv4-mapped address as the IPv4 address. -/
def toCanonical : IpAddr → IpAddr
  | v4 a b c d => v4 a b c d
  | v6 segments =>
      match toIpv4Mapped segments.toList with
      | some (a, b, c, d) => v4 a b c d
      | none => v6 segments

end IpAddr

namespace SocketAddr

/-- The address with its zone, if it has one. -/
def hostText : SocketAddr → Text
  | v4 a b c d _ => (IpAddr.v4 a b c d).toText
  | v6 segments _ scopeId =>
      (IpAddr.v6 segments).toText ++
        if scopeId = 0 then [] else '%' :: IpAddr.decimal scopeId.toNat

/-- `Display` of a socket address. -/
def toText : SocketAddr → Text
  | a@(v4 _ _ _ _ port) => a.hostText ++ ':' :: IpAddr.decimal port.toNat
  | a@(v6 _ port _) => '[' :: a.hostText ++ ']' :: ':' :: IpAddr.decimal port.toNat

end SocketAddr

/-! ### The characters of an address -/

namespace IpAddr

def hexDigits : List Char :=
  ['0', '1', '2', '3', '4', '5', '6', '7', '8', '9', 'a', 'b', 'c', 'd', 'e', 'f']

theorem mem_toDigits {b n : ℕ} (hb : 1 < b) (hb' : b ≤ 16) {c : Char} (h : c ∈ Nat.toDigits b n) :
    c ∈ hexDigits := by
  have hdigit : ∀ d < 16, Nat.digitChar d ∈ hexDigits := by decide
  induction n using Nat.strongRecOn with
  | ind n ih =>
      rw [Nat.toDigits_eq_if hb] at h
      split_ifs at h with hn
      · rw [List.mem_singleton.mp h]
        exact hdigit n (by omega)
      · rcases List.mem_append.mp h with h | h
        · exact ih (n / b) (Nat.div_lt_self (by omega) hb) h
        · rw [List.mem_singleton.mp h]
          exact hdigit _ (by have := Nat.mod_lt n (show 0 < b by omega); omega)

theorem colon_not_mem_toDigits {b n : ℕ} (hb : 1 < b) (hb' : b ≤ 16) : ':' ∉ Nat.toDigits b n :=
  fun h => absurd (mem_toDigits hb hb' h) (by decide)

theorem mem_decimal {n : ℕ} {c : Char} (h : c ∈ decimal n) : c ∈ hexDigits :=
  mem_toDigits (by decide) (by decide) h

theorem count_decimal (n : ℕ) : (decimal n).count ':' = 0 :=
  List.count_eq_zero.mpr (colon_not_mem_toDigits (by decide) (by decide))

theorem mem_dotted {a b c d : UInt8} {x : Char} (h : x ∈ dotted a b c d) :
    x = '.' ∨ x ∈ hexDigits := by
  simp only [dotted, List.mem_append, List.mem_cons] at h
  rcases h with ((h | h | h) | h | h) | h | h
  all_goals first
    | exact .inl h
    | exact .inr (mem_decimal h)

theorem count_dotted (a b c d : UInt8) : (dotted a b c d).count ':' = 0 := by
  simp [dotted, List.count_append, count_decimal]

theorem mem_groups {l : List UInt16} {c : Char} (h : c ∈ groups l) : c = ':' ∨ c ∈ hexDigits := by
  induction l with
  | nil => simp [groups] at h
  | cons s rest ih =>
      cases rest with
      | nil => exact .inr (mem_toDigits (by decide) (by decide) h)
      | cons s' rest =>
          rcases List.mem_append.mp h with h | h
          · exact .inr (mem_toDigits (by decide) (by decide) h)
          · rcases List.mem_cons.mp h with h | h
            · exact .inl h
            · exact ih h

theorem count_groups (l : List UInt16) : (groups l).count ':' = l.length - 1 := by
  have hdigits : ∀ s : UInt16, (Nat.toDigits 16 s.toNat).count ':' = 0 :=
    fun s => List.count_eq_zero.mpr (colon_not_mem_toDigits (by decide) (by decide))
  induction l with
  | nil => rfl
  | cons s rest ih =>
      cases rest with
      | nil => exact hdigits s
      | cons s' rest =>
          rw [groups, List.count_append, hdigits, List.count_cons_self, ih]
          · simp only [List.length_cons]
            omega
          · simp

/-- The longest run of zeroes lies inside the segments. -/
theorem zeroRun_le {i : ℕ} {l : List UInt16} {cur longest : ℕ × ℕ} (hcur : cur.1 + cur.2 ≤ i)
    (hlongest : longest.1 + longest.2 ≤ i) :
    (zeroRun i l cur longest).1 + (zeroRun i l cur longest).2 ≤ i + l.length := by
  induction l generalizing i cur longest with
  | nil => exact hlongest
  | cons s rest ih =>
      rw [zeroRun, List.length_cons, Nat.add_comm rest.length, ← Nat.add_assoc]
      by_cases hs : s = 0
      · rw [if_pos hs]
        dsimp only
        have hnext : (if cur.2 = 0 then (i, 1) else (cur.1, cur.2 + 1)).1 +
            (if cur.2 = 0 then (i, 1) else (cur.1, cur.2 + 1)).2 ≤ i + 1 := by
          split_ifs
          · exact Nat.le_refl _
          · dsimp only
            omega
        generalize (if cur.2 = 0 then (i, 1) else (cur.1, cur.2 + 1)) = next at hnext ⊢
        refine ih hnext ?_
        split_ifs
        · exact hnext
        · exact Nat.le_succ_of_le hlongest
      · rw [if_neg hs]
        exact ih (Nat.zero_le _) (Nat.le_succ_of_le hlongest)

/-- The characters of an address. -/
theorem mem_toText {ip : IpAddr} {c : Char} (h : c ∈ ip.toText) :
    c = ':' ∨ c = '.' ∨ c ∈ hexDigits := by
  cases ip with
  | v4 a b c d => exact .inr (mem_dotted h)
  | v6 segments =>
      rw [toText] at h
      dsimp only at h
      split at h
      · rcases List.mem_append.mp h with h | h
        · have hc : c = ':' ∨ c = 'f' := by
            simp at h
            tauto
          rcases hc with rfl | rfl
          · exact .inl rfl
          · exact .inr (.inr (by decide))
        · exact .inr (mem_dotted h)
      · split_ifs at h
        · simp only [List.mem_append] at h
          rcases h with (h | h) | h
          · exact (mem_groups h).imp_right .inr
          · exact .inl (by simpa using h)
          · exact (mem_groups h).imp_right .inr
        · exact (mem_groups h).imp_right .inr

/-- An IPv6 address has at most eight colons. -/
theorem count_toText (segments : Vector UInt16 8) : (v6 segments).toText.count ':' ≤ 8 := by
  rw [toText]
  dsimp only
  split
  · rw [List.count_append, count_dotted]
    decide
  · have hlen : segments.toList.length = 8 := segments.length_toList
    have hrun := @zeroRun_le 0 segments.toList (0, 0) (0, 0) (Nat.le_refl _) (Nat.le_refl _)
    split_ifs with hz
    · simp only [List.count_append, count_groups, List.length_take, List.length_drop, hlen]
      rw [hlen] at hrun
      have : [':', ':'].count ':' = 2 := by decide
      omega
    · rw [count_groups, hlen]
      decide

end IpAddr

end Tuyau
