import Tuyau.LocalPool

/-! # The labels of socket paths

The path of a Unix socket goes through a URI as a host in hexadecimal: `hex_encode` writes the label and
`UnixConnector` reads it with `hex_decode`.  A label is read back as the bytes it was written for
(`hexDecode_hexEncode`), but the path that is dialled has gone through a text, and a pair of the label is
read by the parser of integers, which takes a plus sign for the first digit.

`hexDecode_isSome` says which texts are read, in terms of their characters, and `hexEncode_of_hexDecode`
that those without a plus sign are the labels themselves, up to letter case.  Together they give
`exact_label_iff`, the bytes and texts for which the label is an exact encoding. -/

namespace Tuyau

open AsciiText Http

/-- A hexadecimal digit in either case. -/
def isHexDigit (c : Char) : Bool := c.toLower ∈ IpAddr.hexDigits

/-- A text of pairs, each of two digits or of a plus sign and a digit. -/
def isPairs : Text → Bool
  | x :: y :: rest => (x = '+' || isHexDigit x) && isHexDigit y && isPairs rest
  | [] => true
  | [_] => false

/-- The labels encode exactly: that of `b` is read back as `b` and makes the connector dial `b`, and if
`s` is read as some bytes, it is their label up to letter case. -/
structure ExactLabel (b : List UInt8) (s : Text) : Prop where
  decoded : hexDecode (hexEncode b) = some b
  dialled : ∀ uri : Uri, uri.host = some (hexEncode b) → unixConnect uri = some b
  canonical : ∀ bs, hexDecode s = some bs → hexEncode bs = toAsciiLowercase s

/-! ### Digits as bytes and as characters -/

theorem hexDigit_ofNat : ∀ n < 128, ∀ d ∈ hexDigit (UInt8.ofNat n),
    d < 16 ∧ Nat.digitChar d = (Char.ofNat n).toLower := by decide

theorem ofNat_eq_plus : ∀ n < 128, UInt8.ofNat n = 0x2b ↔ Char.ofNat n = '+' := by decide

theorem isHexDigit_ofNat : ∀ n < 128, (hexDigit (UInt8.ofNat n)).isSome = isHexDigit (Char.ofNat n) := by
  decide +kernel

section

variable {c : Char}

theorem utf8EncodeChar_ascii (hc : c.toNat < 128) : String.utf8EncodeChar c = [UInt8.ofNat c.toNat] := by
  unfold String.utf8EncodeChar
  exact if_pos (Nat.le_of_lt_succ hc)

theorem digitChar_of_hexDigit {d : ℕ} (hc : c.toNat < 128) (h : hexDigit (UInt8.ofNat c.toNat) = some d) :
    d < 16 ∧ Nat.digitChar d = c.toLower := by
  have hd := hexDigit_ofNat _ hc d h
  rwa [Char.ofNat_toNat] at hd

theorem isSome_hexDigit (hc : c.toNat < 128) :
    (hexDigit (UInt8.ofNat c.toNat)).isSome = isHexDigit c := by
  rw [isHexDigit_ofNat _ hc, Char.ofNat_toNat]

theorem byte_eq_plus (hc : c.toNat < 128) : UInt8.ofNat c.toNat = 0x2b ↔ c = '+' := by
  have hplus := ofNat_eq_plus _ hc
  rwa [Char.ofNat_toNat] at hplus

theorem lt_of_isHexDigit (h : isHexDigit c = true) : c.toNat < 128 := by
  have hall : IpAddr.hexDigits.all (fun d => d.toNat < 128) = true := by decide
  have hlower := of_decide_eq_true (List.all_eq_true.mp hall _ (of_decide_eq_true h))
  unfold Char.toLower at hlower
  split_ifs at hlower with hupper
  · exact lt_of_le_of_lt (UInt32.le_iff_toNat_le.mp hupper.2) (by decide)
  · exact hlower

/-- The first byte of a character that is not ASCII has its high bit set. -/
theorem exists_mem_utf8EncodeChar (hc : ¬ c.toNat < 128) : ∃ b ∈ String.utf8EncodeChar c, 128 ≤ b.toNat := by
  have hbyte : ∀ n, n % 256 = n → 128 ≤ n → 128 ≤ (UInt8.ofNat n).toNat := by
    intro n hn hle
    rwa [UInt8.toNat_ofNat', hn]
  have hc : ¬ c.val.toNat ≤ 127 := fun h => hc (Nat.lt_succ_of_le h)
  unfold String.utf8EncodeChar
  dsimp only
  rw [if_neg hc]
  split_ifs with h₂ h₃
  · exact ⟨_, List.mem_cons_self, hbyte _ (by omega) (by omega)⟩
  · exact ⟨_, List.mem_cons_self, hbyte _ (by omega) (by omega)⟩
  · exact ⟨_, List.mem_cons_self, hbyte _ (by omega) (by omega)⟩

end

/-! ### The texts that are read -/

theorem hexDigit_lt {b : UInt8} {d : ℕ} (h : hexDigit b = some d) : b.toNat < 128 := by
  unfold hexDigit at h
  split_ifs at h with h₁ h₂ h₃
  · exact lt_of_le_of_lt (UInt8.le_iff_toNat_le.mp h₁.2) (by decide)
  · exact lt_of_le_of_lt (UInt8.le_iff_toNat_le.mp h₂.2) (by decide)
  · exact lt_of_le_of_lt (UInt8.le_iff_toNat_le.mp h₃.2) (by decide)

/-- A pair that is read: a digit, and before it another one or a plus sign. -/
theorem fromStrRadix_eq_some {x y b : UInt8} (h : fromStrRadix x y = some b) :
    ∃ lo, hexDigit y = some lo ∧
      (x = 0x2b ∨ ∃ hi, hexDigit x = some hi ∧ b = UInt8.ofNat (16 * hi + lo)) := by
  unfold fromStrRadix at h
  split_ifs at h with hx
  · obtain ⟨lo, hlo, -⟩ := Option.map_eq_some_iff.mp h
    exact ⟨lo, hlo, .inl hx⟩
  · obtain ⟨hi, hhi, h⟩ := Option.bind_eq_some_iff.mp h
    obtain ⟨lo, hlo, h⟩ := Option.bind_eq_some_iff.mp h
    exact ⟨lo, hlo, .inr ⟨hi, hhi, (Option.some.inj h).symm⟩⟩

theorem hexPairs_cons_eq_some {x y : UInt8} {rest bs : List UInt8} (h : hexPairs (x :: y :: rest) = some bs) :
    ∃ b bs', fromStrRadix x y = some b ∧ hexPairs rest = some bs' ∧ bs = b :: bs' := by
  obtain ⟨b, hb, h⟩ := Option.bind_eq_some_iff.mp h
  obtain ⟨bs', hbs', h⟩ := Option.bind_eq_some_iff.mp h
  exact ⟨b, bs', hb, hbs', (Option.some.inj h).symm⟩

/-- Only ASCII is read. -/
theorem lt_of_hexPairs {l bs : List UInt8} (h : hexPairs l = some bs) : ∀ b ∈ l, b.toNat < 128 := by
  fun_induction hexPairs l generalizing bs with
  | case1 x y rest ih =>
      obtain ⟨b, bs', hb, hrest, -⟩ := hexPairs_cons_eq_some h
      obtain ⟨lo, hlo, hx⟩ := fromStrRadix_eq_some hb
      have hx : x.toNat < 128 := by
        rcases hx with rfl | ⟨hi, hhi, -⟩
        · decide
        · exact hexDigit_lt hhi
      intro z hz
      rw [List.mem_cons, List.mem_cons] at hz
      rcases hz with rfl | rfl | hz
      · exact hx
      · exact hexDigit_lt hlo
      · exact ih hrest z hz
  | case2 => simp
  | case3 => cases h

/-- The length need not be tested: an odd number of bytes is never read. -/
theorem hexDecode_eq (s : Text) : hexDecode s = hexPairs (utf8 s) := by
  unfold hexDecode
  split_ifs with hodd
  · cases h : hexPairs (utf8 s) with
    | none => rfl
    | some bs =>
        rw [byteLen, length_hexPairs h] at hodd
        omega
  · rfl

theorem ascii_of_hexDecode {s : Text} {bs : List UInt8} (h : hexDecode s = some bs) :
    ∀ c ∈ s, c.toNat < 128 := by
  intro c hc
  by_contra hlt
  obtain ⟨b, hb, hle⟩ := exists_mem_utf8EncodeChar hlt
  rw [hexDecode_eq] at h
  have := lt_of_hexPairs h b (List.mem_flatMap.mpr ⟨c, hc, hb⟩)
  omega

theorem ascii_of_isPairs {s : Text} (h : isPairs s = true) : ∀ c ∈ s, c.toNat < 128 := by
  fun_induction isPairs s with
  | case1 x y rest ih =>
      simp only [Bool.and_eq_true, Bool.or_eq_true, decide_eq_true_eq] at h
      obtain ⟨⟨hx, hy⟩, hrest⟩ := h
      intro c hc
      rw [List.mem_cons, List.mem_cons] at hc
      rcases hc with rfl | rfl | hc
      · rcases hx with rfl | hx
        · decide
        · exact lt_of_isHexDigit hx
      · exact lt_of_isHexDigit hy
      · exact ih hrest c hc
  | case2 => simp
  | case3 => cases h

section

variable {x y : Char} (hx : x.toNat < 128) (hy : y.toNat < 128)

include hx hy

theorem utf8_pair (s : Text) :
    utf8 (x :: y :: s) = UInt8.ofNat x.toNat :: UInt8.ofNat y.toNat :: utf8 s := by
  rw [utf8, List.flatMap_cons, List.flatMap_cons, utf8EncodeChar_ascii hx, utf8EncodeChar_ascii hy]
  rfl

theorem isSome_fromStrRadix :
    (fromStrRadix (UInt8.ofNat x.toNat) (UInt8.ofNat y.toNat)).isSome =
      ((x = '+' || isHexDigit x) && isHexDigit y) := by
  rw [fromStrRadix, ← isSome_hexDigit hx, ← isSome_hexDigit hy]
  simp only [byte_eq_plus hx]
  by_cases hplus : x = '+'
  · simp [hplus]
  · rw [if_neg hplus]
    cases hexDigit (UInt8.ofNat x.toNat) <;> cases hexDigit (UInt8.ofNat y.toNat) <;> simp [hplus]

end

theorem isSome_hexPairs {s : Text} (hs : ∀ c ∈ s, c.toNat < 128) :
    (hexPairs (utf8 s)).isSome = isPairs s := by
  fun_induction isPairs s with
  | case1 x y rest ih =>
      have hx := hs x List.mem_cons_self
      have hy := hs y (List.mem_cons_of_mem _ List.mem_cons_self)
      have hrest := ih fun c hc => hs c (List.mem_cons_of_mem _ (List.mem_cons_of_mem _ hc))
      rw [utf8_pair hx hy, hexPairs, ← isSome_fromStrRadix hx hy, ← hrest]
      cases fromStrRadix (UInt8.ofNat x.toNat) (UInt8.ofNat y.toNat) <;> cases hexPairs (utf8 rest) <;> rfl
  | case2 => rfl
  | case3 c =>
      rw [utf8, List.flatMap_singleton, utf8EncodeChar_ascii (hs c List.mem_cons_self)]
      rfl

/-- **The texts that are read are those of pairs.** -/
theorem hexDecode_isSome (s : Text) : (hexDecode s).isSome = isPairs s := by
  cases h : hexDecode s with
  | some bs =>
      rw [← isSome_hexPairs (ascii_of_hexDecode h), ← hexDecode_eq, h]
  | none =>
      -- a text of pairs is ASCII, so it would be read
      cases hpairs : isPairs s with
      | false => rfl
      | true =>
          have hsome := isSome_hexPairs (ascii_of_isPairs hpairs)
          rw [← hexDecode_eq, h, hpairs] at hsome
          exact hsome

/-! ### Labels without a plus sign -/

theorem hexEncode_of_digits {hi lo : ℕ} (hhi : hi < 16) (hlo : lo < 16) (bs : List UInt8) :
    hexEncode (UInt8.ofNat (16 * hi + lo) :: bs) = Nat.digitChar hi :: Nat.digitChar lo :: hexEncode bs := by
  have hbyte : (UInt8.ofNat (16 * hi + lo)).toNat = 16 * hi + lo := by
    rw [UInt8.toNat_ofNat']
    omega
  rw [hexEncode, List.flatMap_cons, hbyte, Nat.mul_add_div (by decide), Nat.mul_add_mod,
    Nat.div_eq_of_lt hlo, Nat.mod_eq_of_lt hlo, Nat.add_zero]
  rfl

theorem hexEncode_of_hexPairs {s : Text} {bs : List UInt8} (hs : ∀ c ∈ s, c.toNat < 128) (hplus : '+' ∉ s)
    (h : hexPairs (utf8 s) = some bs) : hexEncode bs = toAsciiLowercase s := by
  fun_induction isPairs s generalizing bs with
  | case1 x y rest ih =>
      have hx := hs x List.mem_cons_self
      have hy := hs y (List.mem_cons_of_mem _ List.mem_cons_self)
      rw [utf8_pair hx hy] at h
      obtain ⟨b, bs', hb, hrest, rfl⟩ := hexPairs_cons_eq_some h
      obtain ⟨lo, hlo, hsign | ⟨hi, hhi, rfl⟩⟩ := fromStrRadix_eq_some hb
      · exact absurd ((byte_eq_plus hx).mp hsign ▸ List.mem_cons_self) hplus
      · obtain ⟨hhi, hxlower⟩ := digitChar_of_hexDigit hx hhi
        obtain ⟨hlo, hylower⟩ := digitChar_of_hexDigit hy hlo
        have hmem : ∀ c ∈ rest, c ∈ x :: y :: rest := fun c hc =>
          List.mem_cons_of_mem _ (List.mem_cons_of_mem _ hc)
        rw [hexEncode_of_digits hhi hlo, hxlower, hylower,
          ih (fun c hc => hs c (hmem c hc)) (fun hc => hplus (hmem _ hc)) hrest]
        rfl
  | case2 =>
      obtain rfl := Option.some.inj h
      rfl
  | case3 c =>
      rw [utf8, List.flatMap_singleton, utf8EncodeChar_ascii (hs c List.mem_cons_self)] at h
      cases h

theorem hexEncode_of_hexDecode {s : Text} {bs : List UInt8} (hplus : '+' ∉ s) (h : hexDecode s = some bs) :
    hexEncode bs = toAsciiLowercase s := by
  have hs := ascii_of_hexDecode h
  rw [hexDecode_eq] at h
  exact hexEncode_of_hexPairs hs hplus h

/-! ### When the labels are exact -/

/-- A text that is read is a label up to letter case, unless it has a plus sign. -/
theorem canonical_iff (s : Text) :
    (∀ bs, hexDecode s = some bs → hexEncode bs = toAsciiLowercase s) ↔ '+' ∉ s ∨ isPairs s = false := by
  have hread := hexDecode_isSome s
  constructor
  · intro hcanonical
    refine or_iff_not_imp_left.mpr fun hplus => ?_
    cases h : hexDecode s with
    | none => rw [← hread, h]; rfl
    | some bs =>
        -- no label has a plus sign
        have hmem : '+' ∈ hexEncode bs := by
          rw [hcanonical bs h]
          exact (mem_toAsciiLowercase (by decide)).mpr (not_not.mp hplus)
        exact absurd (mem_hexEncode hmem) (by decide)
  · intro hs bs h
    rw [h] at hread
    rcases hs with hplus | hpairs
    · exact hexEncode_of_hexDecode hplus h
    · rw [hpairs] at hread
      cases hread

/-- The connector dials the text that the bytes of the label are read as. -/
theorem dialled_iff (b : List UInt8) :
    (∀ uri : Uri, uri.host = some (hexEncode b) → unixConnect uri = some b) ↔ ∃ t : Text, utf8 t = b := by
  constructor
  · intro h
    cases b with
    | nil => exact ⟨[], rfl⟩
    | cons x bs =>
        -- a label that is not empty is an authority of its own
        have hslash : '/' ∉ hexEncode (x :: bs) := fun h => absurd (mem_hexEncode h) (by decide)
        have hhost :=
          @host_of_label (.ofAuthority (hexEncode (x :: bs)) ⟨List.cons_ne_nil _ _, hslash⟩) _ rfl
        exact (unixConnect_eq_iff hhost).mp (h _ hhost)
  · intro htext uri hhost
    exact (unixConnect_eq_iff hhost).mpr htext

/-- **The label of `b` and the text `s` are exact if and only if `b` is UTF-8, and `s` has no plus sign or is
not made of pairs.** -/
theorem exact_label_iff (b : List UInt8) (s : Text) :
    ExactLabel b s ↔ (∃ t : Text, utf8 t = b) ∧ ('+' ∉ s ∨ isPairs s = false) := by
  constructor
  · intro h
    exact ⟨(dialled_iff b).mp h.dialled, (canonical_iff s).mp h.canonical⟩
  · rintro ⟨htext, hs⟩
    exact {
      decoded := hexDecode_hexEncode b
      dialled := (dialled_iff b).mpr htext
      canonical := (canonical_iff s).mpr hs }

/-- A plus sign is taken for a digit, and a byte that is no text is dialled as another path. -/
theorem label_not_exact :
    hexDecode ['+', '5'] = some [5] ∧ hexEncode [5] = ['0', '5'] ∧ ¬ ExactLabel [5] ['+', '5'] ∧
      unixConnect (.ofAuthority ['f', 'f'] (by decide)) = some [0xef, 0xbf, 0xbd] ∧ ¬ ExactLabel [0xff] [] := by
  have hlossy : Utf8Lossy.lossy [0xff] = [Char.ofNat 0xfffd] := by
    have hdecode : Utf8Lossy.decodeChar [0xff] = none := by decide
    rw [Utf8Lossy.lossy, hdecode]
    simp [Utf8Lossy.lossy]
  have hdial : unixConnect (.ofAuthority ['f', 'f'] (by decide)) = some (utf8 (Utf8Lossy.lossy [0xff])) := rfl
  rw [hlossy] at hdial
  refine ⟨by decide, by decide, fun h => ?_, hdial, fun h => ?_⟩
  · exact absurd (h.canonical [5] (by decide)) (by decide)
  · have hpath := h.dialled (.ofAuthority ['f', 'f'] (by decide)) (by decide)
    rw [hdial] at hpath
    exact absurd hpath (by decide)

end Tuyau
