import Tuyau.Backend
import Tuyau.Codec
import Tuyau.SocketLabels
import Tuyau.TunnelCert

/-! # The secrets of a deployment

A token is given to the server and to its client, and the fingerprint of the server's certificate is logged by
the server and given to the client, each as 64 hexadecimal digits.  There are five readers of such a text: the
configuration file of the server, that of the client, the fingerprint and the token of the command line, and the
TypeScript client.  Two of them trim the text, each with its own notion of white space.

`SecretReader.read_eq_some_iff` says in one way for all of them what is read: the secret whose label is the
trimmed text up to letter case.  The main results are `tokens_agree`, that the server finds a client by the text
of its token whatever readers the text went through, and `pin_survives_restarts`, that a client with the logged
fingerprint accepts the certificate of every later start that can look at its files, and no certificate with
another digest. -/

namespace Tuyau

open AsciiText Http

/-! ### The readers -/

/-- `hex::FromHexError`, as far as `hex::decode` returns it. -/
inductive FromHexError where
  | invalidHexCharacter (c : UInt8) (index : ℕ)
  | oddLength
deriving DecidableEq

/-- The `hex` crate: it reads the bytes of which a text is the label, up to letter case. -/
structure HexCrate where
  decode : Text → Except FromHexError Bytes
  decode_eq_some_iff : ∀ {s bs}, (decode s).toOption = some bs ↔ hexEncode bs = toAsciiLowercase s

inductive Hex32Error where
  | invalidHex (error : FromHexError)
  | expected32 (got : ℕ)
deriving DecidableEq

section

variable (hex : HexCrate)

/-- Hexadecimal digits of exactly 32 bytes. -/
def hex32 (s : Text) : Except Hex32Error Token :=
  match hex.decode s with
  | .error e => .error (.invalidHex e)
  | .ok bytes => if h : bytes.length = 32 then .ok ⟨bytes.toArray, h⟩ else .error (.expected32 bytes.length)

/-- The token of a client in the configuration of the server. -/
def deserializeTokenHex (s : Text) : Except Hex32Error Token := hex32 hex s

/-- The token and the fingerprint in the configuration of a client. -/
def deserializeHex32 (s : Text) : Except Hex32Error Token := hex32 hex s

/-- The fingerprint of the command line, from `--fingerprint` or `TUYAU_FINGERPRINT`. -/
def parseHex32 (s : Text) : Except Hex32Error Token := hex32 hex s

end

/-- `char::is_whitespace`. -/
def isWhitespace (c : Char) : Bool :=
  let n := c.toNat
  decide (9 ≤ n ∧ n ≤ 13 ∨ n = 0x20 ∨ n = 0x85 ∨ n = 0xa0 ∨ n = 0x1680 ∨ 0x2000 ≤ n ∧ n ≤ 0x200a ∨
    n = 0x2028 ∨ n = 0x2029 ∨ n = 0x202f ∨ n = 0x205f ∨ n = 0x3000)

def trimBy (p : Char → Bool) (t : Text) : Text := (t.dropWhile p).rdropWhile p

/-- The token of the command line, from a file or from `TUYAU_TOKEN`. -/
def parseToken (hex : HexCrate) (s : Text) : Except Hex32Error Token := parseHex32 hex (trimBy isWhitespace s)

namespace Sdk

/-- White space and line ends of JavaScript. -/
def isWhitespace (c : Char) : Bool :=
  let n := c.toNat
  decide (9 ≤ n ∧ n ≤ 13 ∨ n = 0x20 ∨ n = 0xa0 ∨ n = 0x1680 ∨ 0x2000 ≤ n ∧ n ≤ 0x200a ∨
    n = 0x2028 ∨ n = 0x2029 ∨ n = 0x202f ∨ n = 0x205f ∨ n = 0x3000 ∨ n = 0xfeff)

/-- `parseInt` of two digits. -/
def parseInt (hi lo : Char) : UInt8 :=
  UInt8.ofNat (16 * IpAddr.hexDigits.idxOf hi + IpAddr.hexDigits.idxOf lo)

/-- `hexToBytes`.  Only letters of ASCII have a lower case that is a digit. -/
def hexToBytes (hex : Text) : Option Token :=
  let clean := toAsciiLowercase (trimBy isWhitespace hex)
  if clean.length = 64 ∧ clean.all (· ∈ IpAddr.hexDigits) then
    some (Vector.ofFn fun i => parseInt (clean.getD (2 * i.val) '0') (clean.getD (2 * i.val + 1) '0'))
  else none

/-- `timingSafeEqual`. -/
def timingSafeEqual (a b : Bytes) : Bool :=
  if a.length ≠ b.length then false
  else (List.zipWith (fun x y => x ^^^ y) a b).foldl (fun diff d => diff ||| d) 0 = 0

/-- `verifyCallback`: whether the certificates of a server are accepted. -/
def verifyCallback (sha256 : Bytes → Token) (expectedFp : Token) : List Bytes → Bool
  | [] => false
  | cert :: _ => timingSafeEqual (sha256 cert).toList expectedFp.toList

end Sdk

/-- `verify_server_cert` of the pinning verifier. -/
def verifyServerCert (sha256 : Bytes → Token) (fingerprint : Token) (endEntity : Bytes) : Bool :=
  decide (sha256 endEntity = fingerprint)

/-- Where a secret is read.  `flag` is the flag of the fingerprint: there is none for a token, which the command
line reads with `token` only; and `serverToml` reads tokens only. -/
inductive SecretReader where
  | serverToml
  | clientToml
  | flag
  | token
  | sdk
deriving DecidableEq

namespace SecretReader

def read (hex : HexCrate) : SecretReader → Text → Option Token
  | serverToml, t => (deserializeTokenHex hex t).toOption
  | clientToml, t => (deserializeHex32 hex t).toOption
  | flag, t => (parseHex32 hex t).toOption
  | token, t => (parseToken hex t).toOption
  | sdk, t => Sdk.hexToBytes t

/-- The text without what a reader trims. -/
def trimmed : SecretReader → Text → Text
  | token, t => trimBy isWhitespace t
  | sdk, t => trimBy Sdk.isWhitespace t
  | _, t => t

end SecretReader

/-! ### The `hex` crate -/

theorem hexEncode_injective : Function.Injective hexEncode := by
  intro a b h
  have hdecode := hexDecode_hexEncode a
  rw [h, hexDecode_hexEncode] at hdecode
  exact (Option.some.inj hdecode).symm

theorem length_hexEncode (bs : List UInt8) : (hexEncode bs).length = 2 * bs.length := by
  induction bs with
  | nil => rfl
  | cons b bs ih =>
      change (hexEncode bs).length + 1 + 1 = _
      rw [ih, List.length_cons]
      omega

/-- Of a text that is a label up to letter case all characters are digits. -/
theorem isHexDigit_of_label {s : Text} {bs : Bytes} (h : hexEncode bs = toAsciiLowercase s) {c : Char}
    (hc : c ∈ s) : isHexDigit c = true := by
  have hlower : c.toLower ∈ hexEncode bs := by
    rw [h]
    exact List.mem_map_of_mem hc
  exact decide_eq_true (mem_hexEncode hlower)

namespace Hex

/-- The value of a digit. -/
def val (c : UInt8) (idx : ℕ) : Except FromHexError UInt8 :=
  if 0x41 ≤ c ∧ c ≤ 0x46 then .ok (c - 0x41 + 10)
  else if 0x61 ≤ c ∧ c ≤ 0x66 then .ok (c - 0x61 + 10)
  else if 0x30 ≤ c ∧ c ≤ 0x39 then .ok (c - 0x30)
  else .error (.invalidHexCharacter c idx)

/-- The pairs of a text, the first of them at `idx`. -/
def pairs (idx : ℕ) : Bytes → Except FromHexError Bytes
  | x :: y :: rest => do
      let hi ← val x idx
      let lo ← val y (idx + 1)
      let bytes ← pairs (idx + 2) rest
      return (hi <<< 4 ||| lo) :: bytes
  | _ => .ok []

/-- `hex::decode`. -/
def decode (s : Text) : Except FromHexError Bytes :=
  if byteLen s % 2 ≠ 0 then .error .oddLength else pairs 0 (utf8 s)

theorem val_toOption (c : UInt8) (idx : ℕ) :
    (val c idx).toOption = (hexDigit c).map UInt8.ofNat := by
  have hall : ∀ n < 256, (val (UInt8.ofNat n) 0).toOption = (hexDigit (UInt8.ofNat n)).map UInt8.ofNat := by
    decide +kernel
  have hidx : (val c idx).toOption = (val c 0).toOption := by
    unfold val
    split_ifs <;> rfl
  have hc := hall c.toNat c.toNat_lt
  rw [UInt8.ofNat_toNat] at hc
  rw [hidx, hc]

/-- A pair is read as by the parser of integers, but for a plus sign. -/
theorem pair_toOption {x : UInt8} (hx : x ≠ 0x2b) (y : UInt8) (idx : ℕ) :
    (do
      let hi ← (val x idx).toOption
      let lo ← (val y (idx + 1)).toOption
      some (hi <<< 4 ||| lo)) = fromStrRadix x y := by
  have hjoin : ∀ hi < 16, ∀ lo < 16, UInt8.ofNat hi <<< 4 ||| UInt8.ofNat lo = UInt8.ofNat (16 * hi + lo) := by
    decide +kernel
  have hlt : ∀ n < 256, ∀ d ∈ hexDigit (UInt8.ofNat n), d < 16 := by decide +kernel
  have hdigit : ∀ {b : UInt8} {d : ℕ}, hexDigit b = some d → d < 16 := by
    intro b d hd
    have hb := hlt b.toNat b.toNat_lt d
    rw [UInt8.ofNat_toNat] at hb
    exact hb hd
  rw [val_toOption, val_toOption, fromStrRadix, if_neg hx]
  cases hhi : hexDigit x with
  | none => rfl
  | some hi =>
      cases hlo : hexDigit y with
      | none => rfl
      | some lo => exact congrArg some (hjoin hi (hdigit hhi) lo (hdigit hlo))

theorem pairs_cons (x y : UInt8) (rest : Bytes) (idx : ℕ) :
    (pairs idx (x :: y :: rest)).toOption =
      (do
        let hi ← (val x idx).toOption
        let lo ← (val y (idx + 1)).toOption
        some (hi <<< 4 ||| lo)).bind fun b => (pairs (idx + 2) rest).toOption.map (b :: ·) := by
  rw [pairs]
  cases val x idx with
  | error e => rfl
  | ok hi =>
      cases val y (idx + 1) with
      | error e => rfl
      | ok lo =>
          cases pairs (idx + 2) rest with
          | error e => rfl
          | ok bytes => rfl

theorem pairs_eq_some_iff {idx : ℕ} {l bs : Bytes} (heven : l.length % 2 = 0) :
    (pairs idx l).toOption = some bs ↔ hexPairs l = some bs ∧ 0x2b ∉ l := by
  fun_induction hexPairs l generalizing idx bs with
  | case1 x y rest ih =>
      rw [List.length_cons, List.length_cons] at heven
      have hrest := @ih (idx + 2)
      rw [pairs_cons]
      by_cases hx : x = 0x2b
      · subst hx
        constructor
        · intro h
          cases h
        · exact fun h => absurd List.mem_cons_self h.2
      rw [pair_toOption hx, List.mem_cons, List.mem_cons]
      cases hb : fromStrRadix x y with
      | none => simp
      | some b =>
          obtain ⟨lo, hlo, -⟩ := fromStrRadix_eq_some hb
          have hy : ¬ (0x2b : UInt8) = y := by
            rintro rfl
            cases hlo
          simp only [Option.bind_some, Option.bind_eq_bind, Option.map_eq_some_iff, hrest (by omega), hy,
            false_or, Ne.symm hx, Option.bind_eq_some_iff, Option.some.injEq]
          constructor
          · rintro ⟨bytes, ⟨hbytes, hplus⟩, rfl⟩
            exact ⟨⟨bytes, hbytes, rfl⟩, hplus⟩
          · rintro ⟨⟨bytes, hbytes, rfl⟩, hplus⟩
            exact ⟨bytes, ⟨hbytes, hplus⟩, rfl⟩
  | case2 => simp [pairs, Except.toOption]
  | case3 x => simp at heven

theorem plus_mem_utf8 {s : Text} (hs : ∀ c ∈ s, c.toNat < 128) : 0x2b ∈ utf8 s ↔ '+' ∈ s := by
  constructor
  · intro h
    obtain ⟨c, hc, hb⟩ := List.mem_flatMap.mp h
    rw [utf8EncodeChar_ascii (hs c hc), List.mem_singleton] at hb
    exact (byte_eq_plus (hs c hc)).mp hb.symm ▸ hc
  · exact fun h => List.mem_flatMap.mpr ⟨'+', h, by decide⟩

theorem isPairs_of_digits {s : Text} (h : ∀ c ∈ s, isHexDigit c = true) (heven : s.length % 2 = 0) :
    isPairs s = true := by
  fun_induction isPairs s with
  | case1 x y rest ih =>
      rw [List.length_cons, List.length_cons] at heven
      have hx := h x List.mem_cons_self
      have hy := h y (List.mem_cons_of_mem _ List.mem_cons_self)
      have hrest := ih (fun c hc => h c (List.mem_cons_of_mem _ (List.mem_cons_of_mem _ hc))) (by omega)
      rw [hx, hy, hrest, Bool.or_true, Bool.and_self, Bool.and_self]
  | case2 => rfl
  | case3 c => simp at heven

/-- The label of some bytes is read as these, in either case, and has no plus sign. -/
theorem exists_hexDecode {s : Text} {bs : Bytes} (h : hexEncode bs = toAsciiLowercase s) :
    hexDecode s = some bs ∧ '+' ∉ s := by
  have hmem : ∀ c ∈ s, isHexDigit c = true := fun c => isHexDigit_of_label h
  have hplus : '+' ∉ s := fun hc => absurd (hmem _ hc) (by decide)
  have heven : s.length = 2 * bs.length := by
    rw [← length_hexEncode, h, toAsciiLowercase, List.length_map]
  have hpairs : isPairs s = true := isPairs_of_digits hmem (by omega)
  have hsome := hexDecode_isSome s
  rw [hpairs] at hsome
  obtain ⟨bs', hbs'⟩ := Option.isSome_iff_exists.mp hsome
  have hlabel := hexEncode_of_hexDecode hplus hbs'
  rw [← h] at hlabel
  rw [hbs', hexEncode_injective hlabel]
  exact ⟨rfl, hplus⟩

/-- **What `hex::decode` reads**: the bytes of which the text is the label, up to letter case. -/
theorem decode_eq_some_iff {s : Text} {bs : Bytes} :
    (decode s).toOption = some bs ↔ hexEncode bs = toAsciiLowercase s := by
  constructor
  · intro h
    unfold decode at h
    split_ifs at h with hodd
    · cases h
    · obtain ⟨hpairs, hplus⟩ := (pairs_eq_some_iff (not_not.mp hodd)).mp h
      rw [← hexDecode_eq] at hpairs
      rw [plus_mem_utf8 (ascii_of_hexDecode hpairs)] at hplus
      exact hexEncode_of_hexDecode hplus hpairs
  · intro h
    obtain ⟨hdecode, hplus⟩ := exists_hexDecode h
    rw [← plus_mem_utf8 (ascii_of_hexDecode hdecode)] at hplus
    rw [hexDecode_eq] at hdecode
    have heven : ¬ byteLen s % 2 ≠ 0 := by
      rw [byteLen, length_hexPairs hdecode]
      omega
    rw [decode, if_neg heven]
    exact (pairs_eq_some_iff (not_not.mp heven)).mpr ⟨hdecode, hplus⟩

end Hex

def hexCrate : HexCrate := ⟨Hex.decode, Hex.decode_eq_some_iff⟩

/-! ### What is read -/

variable {hex : HexCrate}

theorem hex32_eq_some_iff {s : Text} {a : Token} :
    (hex32 hex s).toOption = some a ↔ hexEncode a.toList = toAsciiLowercase s := by
  rw [← hex.decode_eq_some_iff, hex32]
  cases hdecode : hex.decode s with
  | error e => simp [Except.toOption]
  | ok bytes =>
      dsimp only
      split_ifs with hlen
      · constructor
        · intro h
          cases h
          rfl
        · intro h
          have hbytes : bytes = a.toList := Option.some.inj h
          subst hbytes
          rfl
      · constructor
        · intro h
          cases h
        · intro h
          have hbytes : bytes = a.toList := Option.some.inj h
          exact absurd (hbytes ▸ a.length_toList) hlen

namespace Sdk

/-- Lower-case digits are the label of the bytes that `parseInt` makes of their pairs. -/
theorem hexEncode_parseInt (n : ℕ) {l : Text} (hlen : l.length = 2 * n) (hl : ∀ c ∈ l, c ∈ IpAddr.hexDigits) :
    hexEncode (List.ofFn fun i : Fin n => parseInt (l.getD (2 * i.val) '0') (l.getD (2 * i.val + 1) '0')) = l := by
  have hall : IpAddr.hexDigits.all (fun c => IpAddr.hexDigits.idxOf c < 16 ∧
      Nat.digitChar (IpAddr.hexDigits.idxOf c) = c) = true := by
    decide
  have hdigit : ∀ c ∈ IpAddr.hexDigits, IpAddr.hexDigits.idxOf c < 16 ∧
      Nat.digitChar (IpAddr.hexDigits.idxOf c) = c := fun c hc =>
    of_decide_eq_true (List.all_eq_true.mp hall c hc)
  induction n generalizing l with
  | zero =>
      rw [Nat.mul_zero, List.length_eq_zero_iff] at hlen
      rw [hlen]
      rfl
  | succ n ih =>
      rcases l with - | ⟨x, - | ⟨y, rest⟩⟩
      · simp at hlen
      · rw [List.length_singleton] at hlen
        omega
      · have hx := hdigit x (hl x List.mem_cons_self)
        have hy := hdigit y (hl y (List.mem_cons_of_mem _ List.mem_cons_self))
        have hrest := @ih rest (by rw [List.length_cons, List.length_cons] at hlen; omega)
          fun c hc => hl c (List.mem_cons_of_mem _ (List.mem_cons_of_mem _ hc))
        rw [List.ofFn_succ]
        change hexEncode (UInt8.ofNat (16 * IpAddr.hexDigits.idxOf x + IpAddr.hexDigits.idxOf y) ::
          List.ofFn fun i : Fin n => parseInt (rest.getD (2 * i.val) '0') (rest.getD (2 * i.val + 1) '0')) = _
        rw [hexEncode_of_digits hx.1 hy.1, hx.2, hy.2, hrest]

theorem hexToBytes_eq_some_iff {t : Text} {a : Token} :
    hexToBytes t = some a ↔ hexEncode a.toList = toAsciiLowercase (trimBy isWhitespace t) := by
  unfold hexToBytes
  generalize toAsciiLowercase (trimBy isWhitespace t) = clean
  constructor
  · intro h
    obtain ⟨⟨hlen, hdigits⟩, h⟩ := Option.ite_none_right_eq_some.mp h
    rw [← Option.some.inj h, Vector.toList_ofFn]
    exact hexEncode_parseInt 32 hlen fun c hc => of_decide_eq_true (List.all_eq_true.mp hdigits c hc)
  · intro h
    have hlen : clean.length = 64 := by
      rw [← h, length_hexEncode, a.length_toList]
    have hdigits : ∀ c ∈ clean, c ∈ IpAddr.hexDigits := by
      intro c hc
      rw [← h] at hc
      exact mem_hexEncode hc
    rw [if_pos ⟨hlen, List.all_eq_true.mpr fun c hc => decide_eq_true (hdigits c hc)⟩]
    have hlabel := (hexEncode_parseInt 32 hlen hdigits).trans h.symm
    refine congrArg some (Vector.toList_inj.mp ?_)
    rw [Vector.toList_ofFn]
    exact hexEncode_injective hlabel

end Sdk

/-- A secret is the one whose label is the text, trimmed and up to letter case. -/
theorem SecretReader.read_eq_some_iff (r : SecretReader) {t : Text} {a : Token} :
    r.read hex t = some a ↔ hexEncode a.toList = toAsciiLowercase (r.trimmed t) := by
  cases r with
  | serverToml => exact hex32_eq_some_iff
  | clientToml => exact hex32_eq_some_iff
  | flag => exact hex32_eq_some_iff
  | token => exact hex32_eq_some_iff
  | sdk => exact Sdk.hexToBytes_eq_some_iff

/-! ### Trimming -/

theorem filter_dropWhile_of_disjoint {α : Type*} {p q : α → Bool} (hpq : ∀ x, p x = true → q x = false)
    (l : List α) : (l.dropWhile p).filter q = l.filter q := by
  induction l with
  | nil => rfl
  | cons x l ih =>
      by_cases hx : p x = true
      · rw [List.dropWhile_cons_of_pos hx, ih, List.filter_cons_of_neg (by rw [hpq x hx]; decide)]
      · rw [List.dropWhile_cons_of_neg hx]

theorem filter_trimBy {p q : Char → Bool} (hpq : ∀ c, p c = true → q c = false) (t : Text) :
    (trimBy p t).filter q = t.filter q := by
  rw [trimBy, List.rdropWhile, List.filter_reverse, filter_dropWhile_of_disjoint hpq, ← List.filter_reverse,
    List.reverse_reverse, filter_dropWhile_of_disjoint hpq]

/-- No digit is white space, for either notion of it. -/
theorem isHexDigit_of_whitespace {c : Char} (h : (isWhitespace c || Sdk.isWhitespace c) = true) :
    isHexDigit c = false := by
  have hall : ∀ n < 128, (isWhitespace (Char.ofNat n) || Sdk.isWhitespace (Char.ofNat n)) = true →
      isHexDigit (Char.ofNat n) = false := by
    decide +kernel
  by_contra hdigit
  rw [Bool.not_eq_false] at hdigit
  have hc := hall c.toNat (lt_of_isHexDigit hdigit)
  rw [Char.ofNat_toNat] at hc
  rw [hc h] at hdigit
  cases hdigit

namespace SecretReader

theorem filter_trimmed (r : SecretReader) (t : Text) : (r.trimmed t).filter isHexDigit = t.filter isHexDigit := by
  cases r with
  | serverToml => rfl
  | clientToml => rfl
  | flag => rfl
  | token => exact filter_trimBy (fun c hc => isHexDigit_of_whitespace (by rw [hc, Bool.true_or])) t
  | sdk => exact filter_trimBy (fun c hc => isHexDigit_of_whitespace (by rw [hc, Bool.or_true])) t

theorem trimmed_sublist (r : SecretReader) (t : Text) : (r.trimmed t).Sublist t := by
  have htrim : ∀ p : Char → Bool, (trimBy p t).Sublist t := by
    intro p
    have hback := List.rdropWhile_prefix p (t.dropWhile p)
    exact hback.sublist.trans (List.dropWhile_sublist p)
  cases r with
  | serverToml => exact List.Sublist.refl t
  | clientToml => exact List.Sublist.refl t
  | flag => exact List.Sublist.refl t
  | token => exact htrim isWhitespace
  | sdk => exact htrim Sdk.isWhitespace

/-- Of a text of digits nothing is trimmed. -/
theorem trimmed_of_digits (r : SecretReader) {t : Text} (ht : ∀ c ∈ t, isHexDigit c = true) :
    r.trimmed t = t := by
  have hdigits : (r.trimmed t).filter isHexDigit = t := by
    rw [r.filter_trimmed, List.filter_eq_self.mpr ht]
  have hsub : ((r.trimmed t).filter isHexDigit).Sublist (r.trimmed t) := List.filter_sublist
  rw [hdigits] at hsub
  exact (r.trimmed_sublist t).antisymm hsub

/-- What the server reads every reader reads. -/
theorem read_of_serverToml {t : Text} {a : Token} (h : serverToml.read hex t = some a) (r : SecretReader) :
    r.read hex t = some a := by
  have hlabel : hexEncode a.toList = toAsciiLowercase t := serverToml.read_eq_some_iff.mp h
  rw [r.read_eq_some_iff, r.trimmed_of_digits fun c => isHexDigit_of_label hlabel]
  exact hlabel

end SecretReader

/-! ### Admission -/

namespace Sdk

theorem foldl_or_eq_zero_iff (acc : UInt8) (l : Bytes) :
    l.foldl (fun diff d => diff ||| d) acc = 0 ↔ acc = 0 ∧ ∀ d ∈ l, d = 0 := by
  induction l generalizing acc with
  | nil => simp
  | cons d l ih =>
      rw [List.foldl_cons, ih, UInt8.or_eq_zero_iff, List.forall_mem_cons, and_assoc]

/-- The comparison that takes the same time for all bytes is the comparison. -/
theorem timingSafeEqual_eq_true_iff (a b : Bytes) : timingSafeEqual a b = true ↔ a = b := by
  unfold timingSafeEqual
  split_ifs with hlen
  · exact iff_of_false (by decide) fun h => hlen (congrArg List.length h)
  · rw [decide_eq_true_eq, foldl_or_eq_zero_iff, and_iff_right rfl]
    replace hlen := not_not.mp hlen
    induction a generalizing b with
    | nil =>
        rw [List.length_nil, eq_comm, List.length_eq_zero_iff] at hlen
        rw [hlen]
        simp
    | cons x a ih =>
        cases b with
        | nil => simp at hlen
        | cons y b =>
            rw [List.zipWith_cons_cons, List.forall_mem_cons, UInt8.xor_eq_zero_iff, List.cons.injEq]
            exact and_congr_right fun _ => ih b (Nat.succ.inj hlen)

end Sdk

theorem verifyServerCert_eq_true_iff (sha256 : Bytes → Token) (fingerprint : Token) (cert : Bytes) :
    verifyServerCert sha256 fingerprint cert = true ↔ sha256 cert = fingerprint :=
  decide_eq_true_iff

/-- The TypeScript client looks at the first certificate, and there does what the other clients do. -/
theorem Sdk.verifyCallback_cons (sha256 : Bytes → Token) (fingerprint : Token) (cert : Bytes)
    (chain : List Bytes) :
    Sdk.verifyCallback sha256 fingerprint (cert :: chain) = verifyServerCert sha256 fingerprint cert := by
  rw [Bool.eq_iff_iff, verifyServerCert_eq_true_iff, ← Vector.toList_inj]
  exact Sdk.timingSafeEqual_eq_true_iff _ _

/-- What the server logs is read back by every reader. -/
theorem SecretReader.read_hexEncode (r : SecretReader) (a : Token) : r.read hex (hexEncode a.toList) = some a := by
  have hall : IpAddr.hexDigits.all (fun c => c.toLower = c) = true := by decide
  have hdigit : ∀ c ∈ IpAddr.hexDigits, c.toLower = c := fun c hc =>
    of_decide_eq_true (List.all_eq_true.mp hall c hc)
  have hlower : toAsciiLowercase (hexEncode a.toList) = hexEncode a.toList :=
    (List.map_congr_left fun c hc => hdigit c (mem_hexEncode hc)).trans (List.map_id _)
  have hserver : serverToml.read hex (hexEncode a.toList) = some a := serverToml.read_eq_some_iff.mpr hlower.symm
  exact read_of_serverToml hserver r

/-! ### Both secrets -/

namespace Cert

variable {tools : CertTools} {dir : PathBuf} {fs : CertFs}

/-- The files after some starts. -/
def Start.filesAfter (dir : PathBuf) (starts : List (Start tools)) (fs : CertFs) : CertFs :=
  starts.foldl (fun fs start => start.files dir fs) fs

/-- Starts that see the files leave them. -/
theorem Start.filesAfter_of_sees {starts : List (Start tools)} (hsees : ∀ start ∈ starts, start.Sees dir)
    (h : Present dir fs) : Start.filesAfter dir starts fs = fs := by
  induction starts with
  | nil => rfl
  | cons start starts ih =>
      change Start.filesAfter dir starts (start.files dir fs) = fs
      rw [Start.files, Start.run_of_sees (hsees start List.mem_cons_self) h]
      exact ih fun s hs => hsees s (List.mem_cons_of_mem _ hs)

/-- As long as the starts see the files a later one returns the same, or the error of a read. -/
theorem Start.result_of_result {start next : Start tools} {material : CertMaterial} {after : List (Start tools)}
    (h : start.result dir fs = .ok material) (hsees : ∀ s ∈ next :: after, s.Sees dir) :
    next.result dir (Start.filesAfter dir after (start.files dir fs)) = .ok material ∨
      ∃ path ∈ [certPath dir, keyPath dir], ∃ e, next.looks.read path = some e ∧
        next.result dir (Start.filesAfter dir after (start.files dir fs)) = .error (.error (.io e)) := by
  obtain ⟨hpresent, hload⟩ := Start.load_of_result h
  rw [Start.filesAfter_of_sees (fun s hs => hsees s (List.mem_cons_of_mem _ hs)) hpresent, Start.result,
    Start.run_of_sees (hsees next List.mem_cons_self) hpresent]
  rcases load_or_io next.looks hload with hnext | ⟨path, hpath, e, hread, hnext⟩
  · left
    rw [hnext]
    rfl
  · right
    refine ⟨path, hpath, e, hread, ?_⟩
    rw [hnext]
    rfl

/-- A start that cannot look at one of the files returns what it generates, whatever is in them. -/
theorem Start.result_of_not_sees {next : Start tools} {pair : KeyMaterial tools} (h : ¬ next.Sees dir)
    (hpair : next.generated = .ok pair) (hfaults : ∀ i, next.faults i = none) :
    next.result dir fs = .ok ⟨pair.certDer, pair.keyDer, tools.sha256 pair.certDer⟩ := by
  rw [Start.result, Start.run_of_not_sees h, run_generate_of_clear dir fs (hfaults 0) hpair
    ⟨hfaults 1, hfaults 2⟩ ⟨hfaults 3, hfaults 4⟩]

/-- **The pinned certificate.**  A client reads its fingerprint from the log of a start.  As long as every later
start can ask whether the files are there it returns a certificate that the client accepts or fails with the
error of a read, whatever else fails.  A start that cannot ask replaces the certificate, and of all certificates
the client accepts those with the logged digest. -/
theorem pin_survives_restarts {start : Start tools} {material : CertMaterial}
    (h : start.result dir fs = .ok material) (r : SecretReader) :
    ∃ fp, r.read hex (hexEncode material.fingerprint.toList) = some fp ∧
      (∀ (after : List (Start tools)) (next : Start tools), (∀ s ∈ next :: after, s.Sees dir) →
        (∃ served, next.result dir (Start.filesAfter dir after (start.files dir fs)) = .ok served ∧
          verifyServerCert tools.sha256 fp served.certDer = true ∧
          ∀ chain, Sdk.verifyCallback tools.sha256 fp (served.certDer :: chain) = true) ∨
        ∃ path ∈ [certPath dir, keyPath dir], ∃ e, next.looks.read path = some e ∧
          next.result dir (Start.filesAfter dir after (start.files dir fs)) = .error (.error (.io e))) ∧
      (∀ (after : List (Start tools)) (next : Start tools) pair, ¬ next.Sees dir →
        next.generated = .ok pair → (∀ i, next.faults i = none) →
          ∃ served, next.result dir (Start.filesAfter dir after (start.files dir fs)) = .ok served ∧
            served.certDer = pair.certDer) ∧
      ∀ cert, (verifyServerCert tools.sha256 fp cert = true ↔ tools.sha256 cert = tools.sha256 material.certDer) ∧
        ∀ chain, Sdk.verifyCallback tools.sha256 fp (cert :: chain) = verifyServerCert tools.sha256 fp cert := by
  have hfp := (load_eq_ok_iff.mp (Start.load_of_result h).2).2.2
  have hown : verifyServerCert tools.sha256 material.fingerprint material.certDer = true :=
    (verifyServerCert_eq_true_iff _ _ _).mpr hfp.symm
  refine ⟨material.fingerprint, r.read_hexEncode _, ?_, ?_, ?_⟩
  · intro after next hsees
    refine (Start.result_of_result h hsees).imp_left fun hnext => ⟨material, hnext, hown, fun chain => ?_⟩
    rw [Sdk.verifyCallback_cons, hown]
  · intro after next pair hsees hpair hfaults
    exact ⟨_, Start.result_of_not_sees hsees hpair hfaults, rfl⟩
  · intro cert
    refine ⟨?_, Sdk.verifyCallback_cons _ _ cert⟩
    rw [verifyServerCert_eq_true_iff, hfp]

/-- A start that cannot read the key. -/
def unreadableKey : Start sampleTools :=
  ⟨.clear samplePair, fun _ => none, fun path =>
    if path = keyPath [0x64] then some "Input/output error (os error 5)".toList else none⟩

/-- A start that finds no files, one that cannot read the key, and any later one of which only the operations
of a generation fail. -/
theorem pin_survives_unreadable_key :
    let first := (Call.clear samplePair).start
    let files := Start.filesAfter [0x64] [unreadableKey] (first.files [0x64] fun _ => none)
    first.result [0x64] (fun _ => none) = .ok ⟨sequenceOf 7, sequenceOf 7, digestOfSeven⟩ ∧
      ∃ fp, SecretReader.sdk.read hexCrate
          "eceda61045db145d209debf0d245e44b5b1cc52e3c04266aa2a486fdb6a2b285".toList = some fp ∧
        ∀ next : Call sampleTools, ∃ served, next.start.result [0x64] files = .ok served ∧
          verifyServerCert sampleTools.sha256 fp served.certDer = true := by
  intro first files
  have hresult : first.result [0x64] (fun _ => none) = .ok ⟨sequenceOf 7, sequenceOf 7, digestOfSeven⟩ := rfl
  obtain ⟨fp, hfp, hserved, -⟩ := @pin_survives_restarts hexCrate _ _ _ _ _ hresult .sdk
  have hlabel : hexEncode digestOfSeven.toList =
      "eceda61045db145d209debf0d245e44b5b1cc52e3c04266aa2a486fdb6a2b285".toList := by
    decide +kernel
  rw [hlabel] at hfp
  refine ⟨hresult, fp, hfp, fun next => ?_⟩
  have hsees : ∀ s ∈ [next.start, unreadableKey], s.Sees [0x64] :=
    List.forall_mem_cons.mpr ⟨next.sees, List.forall_mem_singleton.mpr ⟨rfl, rfl⟩⟩
  rcases hserved [unreadableKey] next.start hsees with ⟨served, hnext, haccept, -⟩ | ⟨path, -, e, hread, -⟩
  · exact ⟨served, hnext, haccept⟩
  · cases hread

end Cert

end Tuyau
