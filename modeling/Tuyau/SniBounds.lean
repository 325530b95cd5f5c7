import Tuyau.CheckedExec
import Tuyau.Http
import Tuyau.Sni

/-! # The ClientHello parser on hostile bytes

The offsets of `parse_sni` advance by lengths that the sender chooses and may pass the end of the bytes
before the next check.  Here the parser is written once more, with each index, slice and addition as an
operation that may be undefined on a machine with words of `width` bits.

It ends as the parser of `Tuyau.Sni` does (`ends_parseSni`): an offset is at most the number of the bytes
and one length field, which is below `2 ^ 16`, so there is room for it in a word, and the loops have at
most as many rounds as there are bytes.  The name that it finds is in the data of an extension of type
`server_name` in the block that the hello declares (`confined_of_parseSni`).  **`parseSni_safe`** has
both. -/

namespace Tuyau

open AsciiText CheckedExec

namespace Checked

/-! ### The parser with all its operations -/

section

variable {ρ : Type} (width : ℕ) (buf : Bytes)

def readU8 (p : ℕ) : Exec ρ (Option (ℕ × ℕ)) :=
  match buf[p]? with
  | none => pure none
  | some v => do
      let p ← Exec.add width p 1
      pure (some (v.toNat, p))

def readU16 (p : ℕ) : Exec ρ (Option (ℕ × ℕ)) := do
  let stop ← Exec.add width p 2
  if buf.length < stop then pure none
  else
    let v₀ ← Exec.index buf p
    let v₁ ← Exec.index buf (← Exec.add width p 1)
    let p ← Exec.add width p 2
    pure (some (BigEndian.ofBytes [v₀, v₁], p))

def readU24 (p : ℕ) : Exec ρ (Option (ℕ × ℕ)) := do
  let stop ← Exec.add width p 3
  if buf.length < stop then pure none
  else
    let v₀ ← Exec.index buf p
    let v₁ ← Exec.index buf (← Exec.add width p 1)
    let v₂ ← Exec.index buf (← Exec.add width p 2)
    let v := v₀.toUInt32 <<< 16 ||| v₁.toUInt32 <<< 8 ||| v₂.toUInt32
    let p ← Exec.add width p 3
    pure (some (v.toNat, p))

/-- What comes before the extensions; where they start and end. -/
def skipToExtensions : Exec (Option Text) (ℕ × ℕ) := do
  let (contentType, p) ← (readU8 width buf 0).orReturn
  if contentType ≠ 0x16 then Exec.ret none
  else
    let p ← Exec.add width p 2
    let (_, p) ← (readU16 width buf p).orReturn
    let (msgType, p) ← (readU8 width buf p).orReturn
    if msgType ≠ 0x01 then Exec.ret none
    else
      let (_, p) ← (readU24 width buf p).orReturn
      let p ← (Exec.checkedAdd width p 2).orReturn
      let p ← (Exec.checkedAdd width p 32).orReturn
      if buf.length < p then Exec.ret none
      else
        let (sessionIdLen, p) ← (readU8 width buf p).orReturn
        let p ← (Exec.checkedAdd width p sessionIdLen).orReturn
        let (csLen, p) ← (readU16 width buf p).orReturn
        let p ← (Exec.checkedAdd width p csLen).orReturn
        let (cmLen, p) ← (readU8 width buf p).orReturn
        let p ← (Exec.checkedAdd width p cmLen).orReturn
        let (extTotal, p) ← (readU16 width buf p).orReturn
        let extEnd ← (Exec.checkedAdd width p extTotal).orReturn
        if buf.length < extEnd then Exec.ret none else pure (p, extEnd)

/-- The loop over the entries of a `server_name` extension, with a bound on its rounds. -/
def scanNames (extEndInner : ℕ) : ℕ → ℕ → Exec (Option Text) Unit
  | 0, _ => Exec.outOfFuel
  | fuel + 1, q =>
      if q < extEndInner then do
        let (nameType, q) ← (readU8 width buf q).orReturn
        let (nameLen, q) ← (readU16 width buf q).orReturn
        let nameEnd ← (Exec.checkedAdd width q nameLen).orReturn
        if extEndInner < nameEnd then Exec.ret none
        else if nameType = 0 then
          if maxSniLen < nameLen then Exec.ret none
          else
            let name ← Exec.slice buf q nameEnd
            Exec.ret (fromUtf8 name)
        else scanNames extEndInner fuel nameEnd
      else pure ()

/-- The loop over the extensions, with a bound on its rounds, and the end of the function after it. -/
def scanExtensions (extEnd : ℕ) : ℕ → ℕ → Exec (Option Text) (Option Text)
  | 0, _ => Exec.outOfFuel
  | fuel + 1, p =>
      if p < extEnd then do
        let (extType, p) ← (readU16 width buf p).orReturn
        let (extDataLen, p) ← (readU16 width buf p).orReturn
        let extEndInner ← (Exec.checkedAdd width p extDataLen).orReturn
        if extEnd < extEndInner then Exec.ret none
        else if extType = 0 then
          let (_, q) ← (readU16 width buf p).orReturn
          scanNames width buf extEndInner fuel q
          scanExtensions extEnd fuel extEndInner
        else scanExtensions extEnd fuel extEndInner
      else Exec.ret none

def parseSni (fuel : ℕ) : Exec (Option Text) (Option Text) := do
  let (p, extEnd) ← skipToExtensions width buf
  scanExtensions width buf extEnd fuel p

end

/-! ### What one read does -/

section

variable {ρ : Type} {width : ℕ} {buf : Bytes} {p : ℕ}

theorem ends_readU8 (h : buf.length < 2 ^ width) :
    Ends width (readU8 width buf p : Exec ρ _) (.ok (Tuyau.readU8 buf p)) := by
  unfold readU8 Tuyau.readU8
  cases hget : buf[p]? with
  | none => exact ends_pure none
  | some v =>
      have hp : p < buf.length := (List.getElem?_eq_some_iff.mp hget).1
      exact (ends_add (by omega)).bind (ends_pure _)

theorem take_two (h : p + 1 < buf.length) : (buf.drop p).take 2 = [buf[p], buf[p + 1]] := by
  rw [List.drop_eq_getElem_cons (by omega), List.drop_eq_getElem_cons h]
  rfl

theorem ends_readU16 (h : p + 2 < 2 ^ width) :
    Ends width (readU16 width buf p : Exec ρ _) (.ok (Tuyau.readU16 buf p)) := by
  apply (ends_add h).bind
  by_cases hlen : buf.length < p + 2
  · rw [if_pos hlen, Tuyau.readU16, readUint, if_pos hlen]
    exact ends_pure none
  · rw [if_neg hlen, Tuyau.readU16, readUint, if_neg hlen, take_two (by omega)]
    apply (ends_index (by omega)).bind
    apply (ends_add (by omega)).bind
    apply (ends_index (by omega)).bind
    apply (ends_add h).bind
    exact ends_pure _

theorem take_three (h : p + 2 < buf.length) :
    (buf.drop p).take 3 = [buf[p], buf[p + 1], buf[p + 2]] := by
  rw [List.drop_eq_getElem_cons (by omega), List.take_succ_cons, take_two (p := p + 1) h]

theorem toNat_shift (v : UInt8) {k : UInt32} (hk : k.toNat ≤ 24) :
    (v.toUInt32 <<< k).toNat = v.toNat <<< k.toNat := by
  rw [UInt32.toNat_shiftLeft, UInt8.toNat_toUInt32, Nat.mod_eq_of_lt (by omega : k.toNat < 32)]
  apply Nat.mod_eq_of_lt
  rw [Nat.shiftLeft_eq]
  calc v.toNat * 2 ^ k.toNat
    _ < 2 ^ 8 * 2 ^ k.toNat := Nat.mul_lt_mul_of_pos_right v.toNat_lt (Nat.two_pow_pos _)
    _ ≤ 2 ^ 8 * 2 ^ 24 := Nat.mul_le_mul_left _ (Nat.pow_le_pow_right (by decide) hk)

/-- The number that `read_u24` shifts together. -/
theorem toNat_or_shift (v₀ v₁ v₂ : UInt8) :
    (v₀.toUInt32 <<< 16 ||| v₁.toUInt32 <<< 8 ||| v₂.toUInt32).toNat = BigEndian.ofBytes [v₀, v₁, v₂] := by
  have hhigh : v₀.toNat <<< 16 ||| v₁.toNat <<< 8 = (v₀.toNat <<< 8 + v₁.toNat) <<< 8 := by
    rw [Nat.shiftLeft_add_eq_or_of_lt v₁.toNat_lt, Nat.shiftLeft_or_distrib, ← Nat.shiftLeft_add]
  have hlow := Nat.shiftLeft_add_eq_or_of_lt v₂.toNat_lt (v₀.toNat <<< 8 + v₁.toNat)
  rw [UInt32.toNat_or, UInt32.toNat_or, toNat_shift v₀ (by decide), toNat_shift v₁ (by decide),
    UInt8.toNat_toUInt32]
  change v₀.toNat <<< 16 ||| v₁.toNat <<< 8 ||| v₂.toNat = _
  rw [hhigh, ← hlow]
  simp only [BigEndian.ofBytes, List.foldl_cons, List.foldl_nil, Nat.shiftLeft_eq]
  ring

theorem ends_readU24 (h : p + 3 < 2 ^ width) :
    Ends width (readU24 width buf p : Exec ρ _) (.ok (Tuyau.readU24 buf p)) := by
  apply (ends_add h).bind
  by_cases hlen : buf.length < p + 3
  · rw [if_pos hlen, Tuyau.readU24, readUint, if_pos hlen]
    exact ends_pure none
  · rw [if_neg hlen, Tuyau.readU24, readUint, if_neg hlen, take_three (by omega), ← toNat_or_shift]
    apply (ends_index (by omega)).bind
    apply (ends_add (by omega)).bind
    apply (ends_index (by omega)).bind
    apply (ends_add (by omega)).bind
    apply (ends_index (by omega)).bind
    apply (ends_add h).bind
    exact ends_pure _

end

end Checked

/-! ### Where a name stands -/

section

variable {buf : Bytes}

/-- The `w` bytes at offset `o` are the big-endian number `n`. -/
def NumAt (buf : Bytes) (w o n : ℕ) : Prop :=
  ∃ bs : Bytes, bs.length = w ∧ bs <+: buf.drop o ∧ BigEndian.ofBytes bs = n

/-- The block of extensions that a ClientHello declares, from offset `start` to offset `stop`. -/
structure ExtensionsBlock (buf : Bytes) (start stop : ℕ) : Prop where
  handshake : NumAt buf 1 0 0x16
  clientHello : NumAt buf 1 5 0x01
  fields : ∃ sessionIdLen csLen cmLen, NumAt buf 1 43 sessionIdLen ∧
    NumAt buf 2 (44 + sessionIdLen) csLen ∧ NumAt buf 1 (46 + sessionIdLen + csLen) cmLen ∧
    NumAt buf 2 (47 + sessionIdLen + csLen + cmLen) (stop - start) ∧
    start = 49 + sessionIdLen + csLen + cmLen
  start_le : start ≤ stop
  stop_le : stop ≤ buf.length

/-- On the way over the extensions from offset `p` to `stop` there is one of type `extType`, with its
data from offset `a` to offset `b`. -/
inductive ExtensionFrom (buf : Bytes) (stop : ℕ) : ℕ → ℕ → ℕ → ℕ → Prop
  | here {p extType len : ℕ} (htype : NumAt buf 2 p extType) (hlen : NumAt buf 2 (p + 2) len)
      (hstop : p + 4 + len ≤ stop) : ExtensionFrom buf stop p extType (p + 4) (p + 4 + len)
  | next {p other len extType a b : ℕ} (htype : NumAt buf 2 p other) (hlen : NumAt buf 2 (p + 2) len)
      (hstop : p + 4 + len ≤ stop) (h : ExtensionFrom buf stop (p + 4 + len) extType a b) :
      ExtensionFrom buf stop p extType a b

/-- The bytes of the name `s` stand between offset `a` and offset `b`, after the type `host_name` and
their number. -/
def HostNameIn (buf : Bytes) (a b : ℕ) (s : Text) : Prop :=
  ∃ o, a ≤ o ∧ o + 3 + (Http.utf8 s).length ≤ b ∧
    0 :: (BigEndian.toBytes 2 (Http.utf8 s).length ++ Http.utf8 s) <+: buf.drop o

/-- The bytes of the name `s` are at most 253 and stand in the data of an extension of type
`server_name` in the declared block. -/
def Confined (buf : Bytes) (s : Text) : Prop :=
  (Http.utf8 s).length ≤ 253 ∧ ∃ start stop a b, ExtensionsBlock buf start stop ∧
    ExtensionFrom buf stop start 0x0000 a b ∧ start ≤ a ∧ b ≤ stop ∧ HostNameIn buf a b s

theorem utf8_of_fromUtf8 {bs : Bytes} {s : Text} (h : fromUtf8 bs = some s) : Http.utf8 s = bs := by
  obtain ⟨str, hstr, rfl⟩ := Option.map_eq_some_iff.mp h
  rw [String.fromUTF8?] at hstr
  split_ifs at hstr with hvalid
  obtain rfl := Option.some.inj hstr
  have henc := String.utf8Encode_toList (b := String.fromUTF8 _ hvalid)
  have hdata := congrArg (fun b : ByteArray => b.data.toList) henc
  simpa [List.utf8Encode, String.fromUTF8, Http.utf8] using hdata

theorem readUint_bounds {w p v p' : ℕ} (h : readUint w buf p = some (v, p')) :
    v < 256 ^ w ∧ p' = p + w ∧ p' ≤ buf.length := by
  rw [readUint] at h
  split_ifs at h with hlen
  obtain ⟨rfl, rfl⟩ := Prod.mk.inj (Option.some.inj h)
  have hlt := BigEndian.ofBytes_lt ((buf.drop p).take w)
  rw [List.length_take_of_le (by rw [List.length_drop]; omega)] at hlt
  exact ⟨hlt, rfl, by omega⟩

theorem numAt_of_readUint {w p v p' : ℕ} (h : readUint w buf p = some (v, p')) : NumAt buf w p v := by
  rw [readUint] at h
  split_ifs at h with hlen
  obtain ⟨rfl, rfl⟩ := Prod.mk.inj (Option.some.inj h)
  exact ⟨_, List.length_take_of_le (by rw [List.length_drop]; omega), List.take_prefix _ _, rfl⟩

theorem drop_of_readUint {w p v p' : ℕ} (h : readUint w buf p = some (v, p')) :
    buf.drop p = BigEndian.toBytes w v ++ buf.drop p' := by
  rw [readUint] at h
  split_ifs at h with hlen
  obtain ⟨rfl, rfl⟩ := Prod.mk.inj (Option.some.inj h)
  have htake : ((buf.drop p).take w).length = w :=
    List.length_take_of_le (by rw [List.length_drop]; omega)
  have hbytes := BigEndian.toBytes_ofBytes ((buf.drop p).take w)
  rw [htake] at hbytes
  rw [hbytes, ← List.drop_drop, List.take_append_drop]

/-- The parser finds the block of extensions that the hello declares. -/
theorem block_of_skipToExtensions {start stop : ℕ} (h : skipToExtensions buf = some (start, stop)) :
    ExtensionsBlock buf start stop := by
  obtain ⟨⟨contentType, p₁⟩, h₁, h⟩ := Option.bind_eq_some_iff.mp h
  dsimp only at h
  split_ifs at h with hcontent
  obtain ⟨⟨recLen, p₂⟩, h₂, h⟩ := Option.bind_eq_some_iff.mp h
  obtain ⟨⟨msgType, p₃⟩, h₃, h⟩ := Option.bind_eq_some_iff.mp h
  dsimp only at h
  split_ifs at h with hmsg
  obtain ⟨⟨hsLen, p₄⟩, h₄, h⟩ := Option.bind_eq_some_iff.mp h
  dsimp only at h
  split_ifs at h with hbody
  obtain ⟨⟨sessionIdLen, p₅⟩, h₅, h⟩ := Option.bind_eq_some_iff.mp h
  obtain ⟨⟨csLen, p₆⟩, h₆, h⟩ := Option.bind_eq_some_iff.mp h
  obtain ⟨⟨cmLen, p₇⟩, h₇, h⟩ := Option.bind_eq_some_iff.mp h
  obtain ⟨⟨extTotal, p₈⟩, h₈, h⟩ := Option.bind_eq_some_iff.mp h
  dsimp only at h
  split_ifs at h with htotal
  rw [readU8_eq] at h₁ h₃ h₅ h₇
  obtain ⟨rfl, rfl⟩ := Prod.mk.inj (Option.some.inj h)
  have e₁ := readUint_snd h₁
  have e₂ := readUint_snd h₂
  have e₃ := readUint_snd h₃
  have e₄ := readUint_snd h₄
  have e₅ := readUint_snd h₅
  have e₆ := readUint_snd h₆
  have e₇ := readUint_snd h₇
  have e₈ := readUint_snd h₈
  have o₃ : p₂ = 5 := by omega
  have o₅ : p₄ + 2 + 32 = 43 := by omega
  have o₆ : p₅ + sessionIdLen = 44 + sessionIdLen := by omega
  have o₇ : p₆ + csLen = 46 + sessionIdLen + csLen := by omega
  have o₈ : p₇ + cmLen = 47 + sessionIdLen + csLen + cmLen := by omega
  rw [not_not] at hcontent hmsg
  rw [hcontent] at h₁
  rw [hmsg, o₃] at h₃
  rw [o₅] at h₅
  rw [o₆] at h₆
  rw [o₇] at h₇
  rw [o₈] at h₈
  exact {
    handshake := numAt_of_readUint h₁
    clientHello := numAt_of_readUint h₃
    fields := by
      refine ⟨sessionIdLen, csLen, cmLen, numAt_of_readUint h₅, numAt_of_readUint h₆,
        numAt_of_readUint h₇, ?_, by omega⟩
      rw [Nat.add_sub_cancel_left]
      exact numAt_of_readUint h₈
    start_le := Nat.le_add_right _ _
    stop_le := Nat.le_of_not_lt htotal }

/-- The loop over the entries of an extension finds a name among them. -/
theorem hostNameIn_of_scanNames {extEndInner q : ℕ} {s : Text} (hend : extEndInner ≤ buf.length)
    (h : scanNames buf extEndInner q = .error (some s)) :
    (Http.utf8 s).length ≤ 253 ∧ HostNameIn buf q extEndInner s := by
  fun_induction scanNames buf extEndInner q with
  | case1 | case2 | case3 | case4 => cases Except.error.inj h
  | case5 q hq q₁ nameLen q₂ h₂ nameEnd hpast hmax h₁ hlt =>
      have hname : (buf.drop q₂).take nameLen = Http.utf8 s :=
        (utf8_of_fromUtf8 (Except.error.inj h)).symm
      have hlen : (Http.utf8 s).length = nameLen := by
        rw [← hname]
        exact List.length_take_of_le (by rw [List.length_drop]; omega)
      rw [readU8_eq] at h₁
      have e₁ := readUint_snd h₁
      have e₂ := readUint_snd h₂
      refine ⟨hlen ▸ Nat.le_of_not_lt hmax, q, Nat.le_refl q, by omega, ?_⟩
      -- the bytes from the type on: the type, the length and the name
      rw [drop_of_readUint h₁, drop_of_readUint h₂, hlen, ← hname]
      change [0] ++ (BigEndian.toBytes 2 nameLen ++ _) <+: [0] ++ (BigEndian.toBytes 2 nameLen ++ _)
      rw [List.prefix_append_right_inj, List.prefix_append_right_inj]
      exact List.take_prefix _ _
  | case6 q hq nameType q₁ h₁ nameLen q₂ h₂ nameEnd hlt hpast htype ih =>
      obtain ⟨hlen, o, ho, hin, hbytes⟩ := ih h
      exact ⟨hlen, o, by omega, hin, hbytes⟩
  | case7 => cases h

/-- The header of an extension. -/
theorem header_of_reads {p extType p₁ len p₂ : ℕ} (h₁ : readU16 buf p = some (extType, p₁))
    (h₂ : readU16 buf p₁ = some (len, p₂)) :
    NumAt buf 2 p extType ∧ NumAt buf 2 (p + 2) len ∧ p₂ = p + 4 := by
  obtain rfl := readUint_snd h₁
  have hp₂ := readUint_snd h₂
  exact ⟨numAt_of_readUint h₁, numAt_of_readUint h₂, by omega⟩

/-- The loop over the extensions finds a name in one of type `server_name`. -/
theorem extensionFrom_of_scanExtensions {extEnd p : ℕ} {s : Text} (hend : extEnd ≤ buf.length)
    (h : scanExtensions buf extEnd p = some s) :
    (Http.utf8 s).length ≤ 253 ∧
      ∃ a b, ExtensionFrom buf extEnd p 0x0000 a b ∧ p ≤ a ∧ b ≤ extEnd ∧ HostNameIn buf a b s := by
  fun_induction scanExtensions buf extEnd p with
  | case1 | case2 | case3 | case4 | case8 => cases h
  | case5 p hp p₁ len p₂ h₂ extEndInner hpast listLen q hlist name hscan h₁ hlt =>
      obtain rfl : name = some s := h
      obtain ⟨htype, hlen, rfl⟩ := header_of_reads h₁ h₂
      have hq := readUint_snd hlist
      obtain ⟨hmax, o, ho, hin, hbytes⟩ := hostNameIn_of_scanNames (by omega) hscan
      exact ⟨hmax, p + 4, p + 4 + len, .here htype hlen (Nat.le_of_not_lt hpast), by omega,
        Nat.le_of_not_lt hpast, o, by omega, hin, hbytes⟩
  | case6 p hp p₁ len p₂ h₂ extEndInner hpast listLen q hlist hscan h₁ hlt ih =>
      obtain ⟨htype, hlen, rfl⟩ := header_of_reads h₁ h₂
      obtain ⟨hmax, a, b, hfrom, ha, hb, hname⟩ := ih h
      exact ⟨hmax, a, b, .next htype hlen (Nat.le_of_not_lt hpast) hfrom, by omega, hb, hname⟩
  | case7 p hp extType p₁ h₁ len p₂ h₂ extEndInner hlt hpast hne ih =>
      obtain ⟨htype, hlen, rfl⟩ := header_of_reads h₁ h₂
      obtain ⟨hmax, a, b, hfrom, ha, hb, hname⟩ := ih h
      exact ⟨hmax, a, b, .next htype hlen (Nat.le_of_not_lt hpast) hfrom, by omega, hb, hname⟩

/-- A name that the parser finds is in the declared block. -/
theorem confined_of_parseSni {s : Text} (h : parseSni buf = some s) : Confined buf s := by
  obtain ⟨⟨start, stop⟩, hskip, hscan⟩ := Option.bind_eq_some_iff.mp h
  have hblock := block_of_skipToExtensions hskip
  obtain ⟨hmax, a, b, hfrom, ha, hb, hname⟩ := extensionFrom_of_scanExtensions hblock.stop_le hscan
  exact ⟨hmax, start, stop, a, b, hblock, hfrom, ha, hb, hname⟩

end

namespace Checked

/-! ### The run of the parser -/

section

variable {width : ℕ} {buf : Bytes}

/-- The loop over the entries of an extension. -/
theorem ends_scanNames (hroom : buf.length + 2 ^ 17 ≤ 2 ^ width) {extEndInner : ℕ}
    (hend : extEndInner ≤ buf.length) {fuel q : ℕ} (hfuel : extEndInner - q < fuel) :
    Ends width (scanNames width buf extEndInner fuel q) (Tuyau.scanNames buf extEndInner q) := by
  induction fuel generalizing q with
  | zero => exact absurd hfuel (Nat.not_lt_zero _)
  | succ fuel ih =>
      rw [scanNames]
      by_cases hq : q < extEndInner
      · rw [if_pos hq]
        apply (ends_readU8 (by omega)).bind_orReturn
        · intro h₁
          rw [Tuyau.scanNames, if_pos hq]
          grind
        rintro ⟨nameType, q₁⟩ h₁
        obtain ⟨-, rfl, hq₁⟩ := readUint_bounds (readU8_eq buf q ▸ h₁)
        apply (ends_readU16 (by omega)).bind_orReturn
        · intro h₂
          rw [Tuyau.scanNames, if_pos hq]
          grind
        rintro ⟨nameLen, q₂⟩ h₂
        obtain ⟨hlen, rfl, hq₂⟩ := readUint_bounds h₂
        rw [scanNames_some hq h₁ h₂]
        apply (ends_checkedAdd (by omega)).orReturn.bind
        by_cases hpast : extEndInner < q + 1 + 2 + nameLen
        · rw [if_pos hpast, if_pos hpast]
          exact ends_ret none
        rw [if_neg hpast, if_neg hpast]
        by_cases htype : nameType = 0
        · rw [if_pos htype, if_pos htype]
          by_cases hmax : maxSniLen < nameLen
          · rw [if_pos hmax, if_pos hmax]
            exact ends_ret none
          · rw [if_neg hmax, if_neg hmax]
            apply (ends_slice (by omega)).bind
            rw [Nat.add_sub_cancel_left]
            exact ends_ret _
        · rw [if_neg htype, if_neg htype]
          exact ih (by omega)
      · rw [if_neg hq, Tuyau.scanNames, if_neg hq]
        exact ends_pure ()

/-- The loop over the extensions. -/
theorem ends_scanExtensions (hroom : buf.length + 2 ^ 17 ≤ 2 ^ width) {extEnd : ℕ}
    (hend : extEnd ≤ buf.length) {fuel p : ℕ} (hfuel : extEnd - p < fuel) :
    Ends width (scanExtensions width buf extEnd fuel p) (.error (Tuyau.scanExtensions buf extEnd p)) := by
  induction fuel generalizing p with
  | zero => exact absurd hfuel (Nat.not_lt_zero _)
  | succ fuel ih =>
      rw [scanExtensions]
      by_cases hp : p < extEnd
      · rw [if_pos hp]
        apply (ends_readU16 (by omega)).bind_orReturn
        · intro h₁
          rw [Tuyau.scanExtensions, if_pos hp]
          grind
        rintro ⟨extType, p₁⟩ h₁
        obtain ⟨-, rfl, hp₁⟩ := readUint_bounds h₁
        apply (ends_readU16 (by omega)).bind_orReturn
        · intro h₂
          rw [Tuyau.scanExtensions, if_pos hp]
          grind
        rintro ⟨extDataLen, p₂⟩ h₂
        obtain ⟨hlen, rfl, hp₂⟩ := readUint_bounds h₂
        rw [scanExtensions_some hp h₁ h₂]
        apply (ends_checkedAdd (by omega)).orReturn.bind
        dsimp only
        by_cases hpast : extEnd < p + 2 + 2 + extDataLen
        · rw [if_pos hpast, if_pos hpast]
          exact ends_ret none
        rw [if_neg hpast, if_neg hpast]
        have hnext := @ih (p + 2 + 2 + extDataLen) (by omega)
        by_cases htype : extType = 0
        · rw [if_pos htype, if_pos htype]
          apply (ends_readU16 (by omega)).bind_orReturn
          · intro h₃
            rw [h₃]
          rintro ⟨listLen, q⟩ h₃
          obtain ⟨-, rfl, hq⟩ := readUint_bounds h₃
          have hnames := @ends_scanNames _ _ hroom (p + 2 + 2 + extDataLen) (by omega) fuel
            (p + 2 + 2 + 2) (by omega)
          rw [h₃]
          dsimp only
          cases hscan : Tuyau.scanNames buf (p + 2 + 2 + extDataLen) (p + 2 + 2 + 2) with
          | error name =>
              rw [hscan] at hnames
              exact hnames.bind_error
          | ok u =>
              rw [hscan] at hnames
              exact hnames.bind hnext
        · rw [if_neg htype, if_neg htype]
          exact hnext
      · rw [if_neg hp, Tuyau.scanExtensions, if_neg hp]
        exact ends_ret none

/-- The fields before the extensions. -/
theorem ends_skipToExtensions (hroom : buf.length + 2 ^ 17 ≤ 2 ^ width) :
    Ends width (skipToExtensions width buf) (orNone (Tuyau.skipToExtensions buf)) := by
  apply (ends_readU8 (by omega)).bind_orNone
  rintro ⟨contentType, p₁⟩ h₁
  obtain ⟨-, rfl, -⟩ := readUint_bounds (readU8_eq buf 0 ▸ h₁)
  apply Ends.guard
  intro _
  apply (ends_add (by omega)).bind
  apply (ends_readU16 (by omega)).bind_orNone
  rintro ⟨recLen, p₂⟩ h₂
  obtain ⟨-, rfl, -⟩ := readUint_bounds h₂
  apply (ends_readU8 (by omega)).bind_orNone
  rintro ⟨msgType, p₃⟩ h₃
  obtain ⟨-, rfl, hp₃⟩ := readUint_bounds (readU8_eq buf _ ▸ h₃)
  apply Ends.guard
  intro _
  apply (ends_readU24 (by omega)).bind_orNone
  rintro ⟨hsLen, p₄⟩ h₄
  obtain ⟨-, rfl, hp₄⟩ := readUint_bounds h₄
  apply (ends_checkedAdd (by omega)).orReturn.bind
  apply (ends_checkedAdd (by omega)).orReturn.bind
  apply Ends.guard
  intro _
  apply (ends_readU8 (by omega)).bind_orNone
  rintro ⟨sessionIdLen, p₅⟩ h₅
  obtain ⟨hlen₅, rfl, hp₅⟩ := readUint_bounds (readU8_eq buf _ ▸ h₅)
  apply (ends_checkedAdd (by omega)).orReturn.bind
  apply (ends_readU16 (by omega)).bind_orNone
  rintro ⟨csLen, p₆⟩ h₆
  obtain ⟨hlen₆, rfl, hp₆⟩ := readUint_bounds h₆
  apply (ends_checkedAdd (by omega)).orReturn.bind
  apply (ends_readU8 (by omega)).bind_orNone
  rintro ⟨cmLen, p₇⟩ h₇
  obtain ⟨hlen₇, rfl, hp₇⟩ := readUint_bounds (readU8_eq buf _ ▸ h₇)
  apply (ends_checkedAdd (by omega)).orReturn.bind
  apply (ends_readU16 (by omega)).bind_orNone
  rintro ⟨extTotal, p₈⟩ h₈
  obtain ⟨hlen₈, rfl, hp₈⟩ := readUint_bounds h₈
  apply (ends_checkedAdd (by omega)).orReturn.bind
  apply Ends.guard
  intro _
  exact ends_pure _

/-- **The run.**  All operations of the parser are defined, and it returns what the parser of
`Tuyau.Sni` does. -/
theorem ends_parseSni (hroom : buf.length + 2 ^ 17 ≤ 2 ^ width) {fuel : ℕ} (hfuel : buf.length < fuel) :
    Ends width (parseSni width buf fuel) (.error (Tuyau.parseSni buf)) := by
  have hskip := ends_skipToExtensions hroom
  unfold parseSni Tuyau.parseSni
  cases h : Tuyau.skipToExtensions buf with
  | none =>
      rw [h] at hskip
      exact hskip.bind_error
  | some block =>
      rw [h] at hskip
      apply hskip.bind
      have hblock := block_of_skipToExtensions h
      exact ends_scanExtensions hroom hblock.stop_le (by have := hblock.stop_le; omega)

end

end Checked

/-- **The parser on any bytes.**  For every width of a word from 32 bits on and every byte string of at
most `isize::MAX` bytes, the parser returns, with every index and slice in bounds and every offset in a
word; and a name that it returns is confined to a `server_name` extension of the declared block. -/
theorem parseSni_safe {width : ℕ} (hwidth : 32 ≤ width) {buf : Bytes}
    (hlen : buf.length ≤ 2 ^ (width - 1) - 1) {fuel : ℕ} (hfuel : buf.length < fuel) :
    ∃ r, (Checked.parseSni width buf fuel).answer = some r ∧
      (∀ a ∈ (Checked.parseSni width buf fuel).trace, a.Ok width) ∧ r = parseSni buf ∧
      ∀ s, r = some s → Confined buf s := by
  have hhalf : 2 ^ 31 ≤ 2 ^ (width - 1) := Nat.pow_le_pow_right (by decide) (by omega)
  have hwhole : 2 ^ width = 2 * 2 ^ (width - 1) := by
    rw [← pow_succ']
    congr 1
    omega
  have hends := @Checked.ends_parseSni width buf (by omega) fuel hfuel
  exact ⟨parseSni buf, hends.answer_eq, hends.trace, rfl, fun s hs => confined_of_parseSni hs⟩

/-- A hello with one extension, for the name `app`. -/
def helloApp : Bytes :=
  [0x16, 3, 1, 0, 0, 0x01, 0, 0, 0, 3, 3] ++ List.replicate 32 0 ++
    [0, 0, 0, 0, 0, 12, 0, 0, 0, 8, 0, 6, 0, 0, 3, 97, 112, 112]

theorem parseSni_safe_app :
    helloApp.length ≤ 2 ^ (64 - 1) - 1 ∧
      (Checked.parseSni 64 helloApp 64).answer = some (some ['a', 'p', 'p']) ∧
      Confined helloApp ['a', 'p', 'p'] := by
  have hanswer : (Checked.parseSni 64 helloApp 64).answer = some (some ['a', 'p', 'p']) := by
    decide +kernel
  obtain ⟨r, hr, -, -, hconfined⟩ :=
    @parseSni_safe 64 (by decide) helloApp (by decide) 64 (by decide)
  rw [hanswer] at hr
  exact ⟨by decide, hanswer, hconfined _ (Option.some.inj hr).symm⟩

end Tuyau
