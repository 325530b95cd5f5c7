import Mathlib.Data.Vector.Basic
import Tuyau.Codec

/-! # The name in a ClientHello

`parse_sni` walks over a ClientHello record with an offset into its bytes: it skips the fields before
the extensions, then looks in every `server_name` extension for an entry of type `host_name`.

A `ClientHelloRecord` is what a client puts into such a record, and `encode` the bytes it makes of it.
The main result is `parseSni_encode`: whatever the fields before the extensions, the other extensions
and the bytes after the record, the parser finds the name a client sent, and it finds none in any
proper part of a record.

The parser leaves the length fields of the record and of the handshake message unread, and its offsets
stay below the length of the input and 2 ^ 16, so they are natural numbers here. -/

namespace Tuyau

open AsciiText

/-- `MAX_SNI_LEN`. -/
def maxSniLen : ℕ := 253

/-- `std::str::from_utf8`. -/
def fromUtf8 (bs : Bytes) : Option Text := (String.fromUTF8? ⟨bs.toArray⟩).map String.toList

/-! ### The parser -/

/-- A big-endian number of `w` bytes at offset `p`, and the offset after it. -/
def readUint (w : ℕ) (buf : Bytes) (p : ℕ) : Option (ℕ × ℕ) :=
  if buf.length < p + w then none
  else some (BigEndian.ofBytes ((buf.drop p).take w), p + w)

def readU8 (buf : Bytes) (p : ℕ) : Option (ℕ × ℕ) := buf[p]?.map fun v => (v.toNat, p + 1)

def readU16 : Bytes → ℕ → Option (ℕ × ℕ) := readUint 2

def readU24 : Bytes → ℕ → Option (ℕ × ℕ) := readUint 3

theorem readUint_snd {w : ℕ} {buf : Bytes} {p v p' : ℕ} (h : readUint w buf p = some (v, p')) :
    p' = p + w := by
  rw [readUint] at h
  split_ifs at h
  exact (Prod.mk.inj (Option.some.inj h)).2.symm

theorem readU8_eq (buf : Bytes) (p : ℕ) : readU8 buf p = readUint 1 buf p := by
  rw [readU8, readUint]
  split_ifs with hp
  · rw [List.getElem?_eq_none (by omega), Option.map_none]
  · have hlt : p < buf.length := by omega
    rw [List.getElem?_eq_getElem hlt, Option.map_some, List.drop_eq_getElem_cons hlt,
      List.take_succ_cons, List.take_zero]
    simp [BigEndian.ofBytes]

/-- The entries of a `server_name` extension: `error` is a return from the parser, `ok` the end of the
loop. -/
def scanNames (buf : Bytes) (extEndInner q : ℕ) : Except (Option Text) Unit :=
  if q < extEndInner then
    match h₁ : readU8 buf q with
    | none => .error none
    | some (nameType, q₁) =>
        match h₂ : readU16 buf q₁ with
        | none => .error none
        | some (nameLen, q₂) =>
            let nameEnd := q₂ + nameLen
            have : q < nameEnd := by
              have h₁' := readUint_snd (readU8_eq buf q ▸ h₁)
              have h₂' := readUint_snd h₂
              omega
            if extEndInner < nameEnd then .error none
            else if nameType = 0 then
              if maxSniLen < nameLen then .error none
              else .error (fromUtf8 ((buf.drop q₂).take nameLen))
            else scanNames buf extEndInner nameEnd
  else .ok ()
termination_by extEndInner - q

theorem scanNames_some {buf : Bytes} {extEndInner q nameType q₁ nameLen q₂ : ℕ}
    (hq : q < extEndInner) (h₁ : readU8 buf q = some (nameType, q₁))
    (h₂ : readU16 buf q₁ = some (nameLen, q₂)) :
    scanNames buf extEndInner q =
      if extEndInner < q₂ + nameLen then .error none
      else if nameType = 0 then
        if maxSniLen < nameLen then .error none
        else .error (fromUtf8 ((buf.drop q₂).take nameLen))
      else scanNames buf extEndInner (q₂ + nameLen) := by
  rw [scanNames, if_pos hq]
  grind

/-- The extensions. -/
def scanExtensions (buf : Bytes) (extEnd p : ℕ) : Option Text :=
  if p < extEnd then
    match h₁ : readU16 buf p with
    | none => none
    | some (extType, p₁) =>
        match h₂ : readU16 buf p₁ with
        | none => none
        | some (extDataLen, p₂) =>
            let extEndInner := p₂ + extDataLen
            have : p < extEndInner := by
              have h₁' := readUint_snd h₁
              have h₂' := readUint_snd h₂
              omega
            if extEnd < extEndInner then none
            else if extType = 0 then
              match readU16 buf p₂ with
              | none => none
              | some (_, q) =>
                  match scanNames buf extEndInner q with
                  | .error name => name
                  | .ok () => scanExtensions buf extEnd extEndInner
            else scanExtensions buf extEnd extEndInner
  else none
termination_by extEnd - p

theorem scanExtensions_some {buf : Bytes} {extEnd p extType p₁ extDataLen p₂ : ℕ}
    (hp : p < extEnd) (h₁ : readU16 buf p = some (extType, p₁))
    (h₂ : readU16 buf p₁ = some (extDataLen, p₂)) :
    scanExtensions buf extEnd p =
      if extEnd < p₂ + extDataLen then none
      else if extType = 0 then
        match readU16 buf p₂ with
        | none => none
        | some (_, q) =>
            match scanNames buf (p₂ + extDataLen) q with
            | .error name => name
            | .ok () => scanExtensions buf extEnd (p₂ + extDataLen)
      else scanExtensions buf extEnd (p₂ + extDataLen) := by
  rw [scanExtensions, if_pos hp]
  grind

/-- Skip what comes before the extensions; where they start and end. -/
def skipToExtensions (buf : Bytes) : Option (ℕ × ℕ) := do
  let (contentType, p) ← readU8 buf 0
  if contentType ≠ 0x16 then none
  else
    let p := p + 2
    let (_, p) ← readU16 buf p
    let (msgType, p) ← readU8 buf p
    if msgType ≠ 0x01 then none
    else
      let (_, p) ← readU24 buf p
      let p := p + 2
      let p := p + 32
      if buf.length < p then none
      else
        let (sessionIdLen, p) ← readU8 buf p
        let p := p + sessionIdLen
        let (csLen, p) ← readU16 buf p
        let p := p + csLen
        let (cmLen, p) ← readU8 buf p
        let p := p + cmLen
        let (extTotal, p) ← readU16 buf p
        let extEnd := p + extTotal
        if buf.length < extEnd then none else some (p, extEnd)

def parseSni (buf : Bytes) : Option Text := do
  let (p, extEnd) ← skipToExtensions buf
  scanExtensions buf extEnd p

/-! ### Records -/

/-- An entry of a `server_name` extension. -/
structure ServerName where
  nameType : UInt8
  name : Bytes

/-- An extension: a list of server names, or anything of another type. -/
inductive Extension where
  | serverName (names : List ServerName)
  | other (extType : ℕ) (data : Bytes) (ne : extType ≠ 0) (lt : extType < 2 ^ 16)

def ServerName.encode (s : ServerName) : Bytes :=
  s.nameType :: (BigEndian.toBytes 2 s.name.length ++ s.name)

/-- An entry of type `host_name`. -/
def ServerName.isHostName (s : ServerName) : Bool := s.nameType == 0

/-- The name of an entry, if it is short enough and text. -/
def ServerName.text (s : ServerName) : Option Text :=
  if maxSniLen < s.name.length then none else fromUtf8 s.name

namespace Extension

def extType : Extension → ℕ
  | serverName _ => 0
  | other extType _ _ _ => extType

def data : Extension → Bytes
  | serverName names =>
      let entries := names.flatMap ServerName.encode
      BigEndian.toBytes 2 entries.length ++ entries
  | other _ data _ _ => data

def encode (e : Extension) : Bytes :=
  BigEndian.toBytes 2 e.extType ++ (BigEndian.toBytes 2 e.data.length ++ e.data)

/-- The server names of an extension. -/
def names : Extension → List ServerName
  | serverName names => names
  | other .. => []

end Extension

/-- What a client sends in a ClientHello. -/
structure ClientHelloRecord where
  recordVersion : Vector UInt8 2
  clientVersion : Vector UInt8 2
  random : Vector UInt8 32
  sessionId : Bytes
  cipherSuites : Bytes
  compressions : Bytes
  extensions : List Extension
  sessionId_lt : sessionId.length < 2 ^ 8
  cipherSuites_lt : cipherSuites.length < 2 ^ 16
  compressions_lt : compressions.length < 2 ^ 8
  extensions_lt : (extensions.flatMap Extension.encode).length < 2 ^ 16

namespace ClientHelloRecord

variable (m : ClientHelloRecord)

/-- The bytes of the extensions. -/
def exts : Bytes := m.extensions.flatMap Extension.encode

/-- The body of the handshake message. -/
def body : Bytes :=
  m.clientVersion.toList ++ (m.random.toList ++
    (BigEndian.toBytes 1 m.sessionId.length ++ (m.sessionId ++
      (BigEndian.toBytes 2 m.cipherSuites.length ++ (m.cipherSuites ++
        (BigEndian.toBytes 1 m.compressions.length ++ (m.compressions ++
          (BigEndian.toBytes 2 m.exts.length ++ m.exts))))))))

/-- The bytes of the record; its length fields are cut to their width. -/
def encode : Bytes :=
  let handshake := 0x01 :: (BigEndian.toBytes 3 m.body.length ++ m.body)
  0x16 :: (m.recordVersion.toList ++ (BigEndian.toBytes 2 handshake.length ++ handshake))

/-- The first entry of type `host_name`. -/
def hostName : Option ServerName :=
  (m.extensions.flatMap Extension.names).find? ServerName.isHostName

/-- The name that a record carries. -/
def sni : Option Text := m.hostName.bind ServerName.text

end ClientHelloRecord

/-! ### Reading at an offset -/

section

variable {w n p : ℕ} {buf rest : Bytes}

theorem drop_add {a : Bytes} (h : buf.drop p = a ++ rest) : buf.drop (p + a.length) = rest := by
  rw [← List.drop_drop, h, List.drop_left]

theorem drop_succ {v : UInt8} (h : buf.drop p = v :: rest) : buf.drop (p + 1) = rest :=
  drop_add (a := [v]) h

theorem readUint_of_drop (hw : 0 < w) (hn : n < 256 ^ w)
    (h : buf.drop p = BigEndian.toBytes w n ++ rest) : readUint w buf p = some (n, p + w) := by
  have hlen := congrArg List.length h
  rw [List.length_drop, List.length_append, BigEndian.length_toBytes] at hlen
  rw [readUint, if_neg (by omega), h, List.take_left' (BigEndian.length_toBytes w n),
    BigEndian.ofBytes_toBytes hn]

theorem drop_readUint (h : buf.drop p = BigEndian.toBytes w n ++ rest) : buf.drop (p + w) = rest := by
  have hrest := drop_add h
  rwa [BigEndian.length_toBytes] at hrest

theorem readU16_of_drop (hn : n < 2 ^ 16) (h : buf.drop p = BigEndian.toBytes 2 n ++ rest) :
    readU16 buf p = some (n, p + 2) := readUint_of_drop (by decide) hn h

theorem readU8_of_toBytes (hn : n < 2 ^ 8) (h : buf.drop p = BigEndian.toBytes 1 n ++ rest) :
    readU8 buf p = some (n, p + 1) := by
  rw [readU8_eq]
  exact readUint_of_drop (by decide) hn h

theorem readU8_of_drop {v : UInt8} (h : buf.drop p = v :: rest) :
    readU8 buf p = some (v.toNat, p + 1) := by
  have hget : buf[p]? = some v := by
    rw [← List.head?_drop, h, List.head?_cons]
  rw [readU8, hget, Option.map_some]

end

/-! ### The loops -/

section

variable {buf rest : Bytes} {extEnd p : ℕ}

theorem ServerName.length_encode (s : ServerName) : s.encode.length = 3 + s.name.length := by
  simp only [ServerName.encode, List.length_cons, List.length_append, BigEndian.length_toBytes]
  omega

/-- The inner loop over the entries of an extension: it returns at the first `host_name`. -/
theorem scanNames_of_drop {names : List ServerName} {q : ℕ}
    (hlen : (names.flatMap ServerName.encode).length < 2 ^ 16)
    (h : buf.drop q = names.flatMap ServerName.encode ++ rest) :
    scanNames buf (q + (names.flatMap ServerName.encode).length) q =
      match names.find? ServerName.isHostName with
      | none => .ok ()
      | some s => .error s.text := by
  induction names generalizing q with
  | nil => rw [scanNames, if_neg (by simp)]; rfl
  | cons s names ih =>
      rw [List.flatMap_cons] at h hlen ⊢
      rw [List.length_append, ServerName.length_encode] at hlen ⊢
      simp only [ServerName.encode, List.cons_append, List.append_assoc] at h
      have htype := readU8_of_drop h
      have h₁ := drop_succ h
      have hname := readU16_of_drop (by omega) h₁
      have h₂ := drop_readUint h₁
      rw [scanNames_some (by omega) htype hname, if_neg (by omega)]
      by_cases hzero : s.nameType = 0
      · have hnum : s.nameType.toNat = 0 := by rw [hzero]; rfl
        have hhost : s.isHostName = true := beq_iff_eq.mpr hzero
        rw [if_pos hnum, h₂, List.take_left, List.find?_cons_of_pos hhost]
        dsimp only
        rw [ServerName.text]
        split_ifs <;> rfl
      · have hnum : s.nameType.toNat ≠ 0 := fun h => hzero (UInt8.toNat_inj.mp h)
        have hhost : ¬ s.isHostName = true := fun h => hzero (beq_iff_eq.mp h)
        have hlast := ih (by omega) (drop_add h₂)
        rw [if_neg hnum, List.find?_cons_of_neg hhost, ← hlast]
        congr 1
        omega

/-- The data of a `server_name` extension, from its list length on. -/
theorem scanNames_data {names : List ServerName} {p : ℕ}
    (hlen : (Extension.serverName names).data.length < 2 ^ 16)
    (h : buf.drop p = (Extension.serverName names).data ++ rest) :
    ∃ listLen, readU16 buf p = some (listLen, p + 2) ∧
      scanNames buf (p + (Extension.serverName names).data.length) (p + 2) =
        match names.find? ServerName.isHostName with
        | none => .ok ()
        | some s => .error s.text := by
  simp only [Extension.data, List.length_append, BigEndian.length_toBytes, List.append_assoc]
    at hlen h ⊢
  have hlist := readU16_of_drop (by omega) h
  refine ⟨_, hlist, ?_⟩
  rw [← Nat.add_assoc]
  exact scanNames_of_drop (by omega) (drop_readUint h)

theorem Extension.length_encode (e : Extension) : e.encode.length = 4 + e.data.length := by
  simp only [Extension.encode, List.length_append, BigEndian.length_toBytes]
  omega

theorem Extension.extType_lt (e : Extension) : e.extType < 2 ^ 16 := by
  cases e with
  | serverName names => exact Nat.two_pow_pos 16
  | other extType data ne lt => exact lt

/-- The loop over the extensions: it returns the first `host_name` of all. -/
theorem scanExtensions_of_drop {exts : List Extension} {p : ℕ}
    (hlen : (exts.flatMap Extension.encode).length < 2 ^ 16)
    (h : buf.drop p = exts.flatMap Extension.encode ++ rest) :
    scanExtensions buf (p + (exts.flatMap Extension.encode).length) p =
      ((exts.flatMap Extension.names).find? ServerName.isHostName).bind ServerName.text := by
  induction exts generalizing p with
  | nil => rw [scanExtensions, if_neg (by simp)]; rfl
  | cons e exts ih =>
      rw [List.flatMap_cons] at h hlen ⊢
      rw [List.length_append, Extension.length_encode] at hlen ⊢
      simp only [Extension.encode, List.append_assoc] at h
      have htype := readU16_of_drop e.extType_lt h
      have h₁ := drop_readUint h
      have hdata := readU16_of_drop (by omega) h₁
      have h₂ := drop_readUint h₁
      have hlast := ih (by omega) (drop_add h₂)
      have hend : p + 2 + 2 + e.data.length + (exts.flatMap Extension.encode).length =
          p + (4 + e.data.length + (exts.flatMap Extension.encode).length) := by omega
      rw [hend] at hlast
      rw [scanExtensions_some (by omega) htype hdata, if_neg (by omega), List.flatMap_cons,
        List.find?_append]
      cases e with
      | other extType data ne lt => exact (if_neg ne).trans hlast
      | serverName names =>
          obtain ⟨listLen, hlist, hnames⟩ := scanNames_data (by omega) h₂
          refine (if_pos rfl).trans ?_
          rw [hlist]
          dsimp only
          rw [hnames]
          change _ = ((names.find? ServerName.isHostName).or _).bind _
          cases names.find? ServerName.isHostName with
          | none => exact hlast
          | some s => rfl

end

/-! ### The fields before the extensions -/

theorem exists_readUint {w n p : ℕ} {buf rest : Bytes} (hw : 0 < w)
    (h : buf.drop p = BigEndian.toBytes w n ++ rest) : ∃ v, readUint w buf p = some (v, p + w) := by
  have hlen := congrArg List.length h
  rw [List.length_drop, List.length_append, BigEndian.length_toBytes] at hlen
  exact ⟨_, if_neg (by omega)⟩

theorem length_of_drop {p : ℕ} {buf a rest : Bytes} (ha : a ≠ []) (h : buf.drop p = a ++ rest) :
    buf.length = p + a.length + rest.length := by
  have hlen := congrArg List.length h
  have hpos := List.length_pos_iff.mpr ha
  rw [List.length_drop, List.length_append] at hlen
  omega

namespace ClientHelloRecord

variable (m : ClientHelloRecord)

/-- The parser finds the extensions of a record. -/
theorem skipToExtensions_encode (more : Bytes) :
    ∃ p, skipToExtensions (m.encode ++ more) = some (p, p + m.exts.length) ∧
      (m.encode ++ more).drop p = m.exts ++ more ∧ p + m.exts.length = m.encode.length := by
  obtain ⟨buf, hbuf⟩ : ∃ buf, buf = m.encode ++ more := ⟨_, rfl⟩
  have h₀ : buf.drop 0 = m.encode ++ more := hbuf
  rw [← hbuf]
  simp only [encode, List.cons_append, List.append_assoc] at h₀
  have r₀ : readU8 buf 0 = some (0x16, _) := readU8_of_drop h₀
  have h₁ := drop_add (drop_succ h₀)
  rw [Vector.length_toList] at h₁
  obtain ⟨recLen, r₁⟩ : ∃ v, readU16 buf _ = some (v, _) := exists_readUint (by decide) h₁
  have h₂ := drop_readUint h₁
  have r₂ : readU8 buf _ = some (0x01, _) := readU8_of_drop h₂
  have h₃ := drop_succ h₂
  obtain ⟨hsLen, r₃⟩ : ∃ v, readU24 buf _ = some (v, _) := exists_readUint (by decide) h₃
  have h₄ := drop_readUint h₃
  simp only [body, List.append_assoc] at h₄
  replace h₄ := drop_add (drop_add h₄)
  rw [Vector.length_toList, Vector.length_toList] at h₄
  have r₄ := readU8_of_toBytes m.sessionId_lt h₄
  have h₅ := drop_add (drop_readUint h₄)
  have r₅ := readU16_of_drop m.cipherSuites_lt h₅
  have h₆ := drop_add (drop_readUint h₅)
  have r₆ := readU8_of_toBytes m.compressions_lt h₆
  have h₇ := drop_add (drop_readUint h₆)
  have r₇ := readU16_of_drop (n := m.exts.length) m.extensions_lt h₇
  have h₈ := drop_readUint h₇
  have hall := length_of_drop (by simp [BigEndian.toBytes]) h₇
  rw [BigEndian.length_toBytes, List.length_append] at hall
  have hlen : buf.length = m.encode.length + more.length := by rw [hbuf, List.length_append]
  refine ⟨_, ?_, h₈, by omega⟩
  simp only [skipToExtensions, Option.bind_eq_bind, Option.bind_some, ne_eq, not_true_eq_false, if_false,
    r₀, r₁, r₂, r₃, r₄, r₅, r₆, r₇]
  rw [if_neg (by omega), if_neg (by omega)]

end ClientHelloRecord

/-! ### Parts of a record -/

theorem readUint_append {w p : ℕ} {buf : Bytes} {r : ℕ × ℕ} (h : readUint w buf p = some r)
    (more : Bytes) : readUint w (buf ++ more) p = some r := by
  rw [readUint] at h
  split_ifs at h with hlen
  rw [readUint, if_neg (by rw [List.length_append]; omega), ← h,
    List.drop_append_of_le_length (by omega), List.take_append_of_le_length]
  rw [List.length_drop]
  omega

theorem readU8_append {p : ℕ} {buf : Bytes} {r : ℕ × ℕ} (h : readU8 buf p = some r) (more : Bytes) :
    readU8 (buf ++ more) p = some r := by
  rw [readU8_eq] at h ⊢
  exact readUint_append h more

/-- Where the extensions are found inside the input, more input does not change where they are. -/
theorem skipToExtensions_append {buf : Bytes} {r : ℕ × ℕ} (h : skipToExtensions buf = some r)
    (more : Bytes) : skipToExtensions (buf ++ more) = some r ∧ r.2 ≤ buf.length := by
  simp only [skipToExtensions, Option.bind_eq_bind, Option.bind_eq_some_iff,
    Option.ite_none_left_eq_some] at h
  obtain ⟨a₀, r₀, htype, a₁, r₁, a₂, r₂, hmsg, a₃, r₃, hrandom, a₄, r₄, a₅, r₅, a₆, r₆, a₇, r₇, hend,
    hr⟩ := h
  have hmore : buf.length ≤ (buf ++ more).length := by
    rw [List.length_append]
    exact Nat.le_add_right _ _
  constructor
  · simp only [skipToExtensions, Option.bind_eq_bind, Option.bind_some, readU8_append r₀,
      readU16, readUint_append r₁, readU8_append r₂, readU24, readUint_append r₃, readU8_append r₄,
      readUint_append r₅, readU8_append r₆, readUint_append r₇]
    rw [if_neg htype, if_neg hmsg, if_neg (by omega), if_neg (by omega), hr]
  · rw [← Option.some.inj hr]
    exact Nat.not_lt.mp hend

/-- **The parser finds the name of every well-formed ClientHello**, whatever follows the record, and
finds nothing in a proper part of one. -/
theorem parseSni_encode (m : ClientHelloRecord) :
    (∀ more, parseSni (m.encode ++ more) = m.sni) ∧
      ∀ part, part <+: m.encode → part ≠ m.encode → parseSni part = none := by
  constructor
  · intro more
    obtain ⟨p, hskip, hdrop, -⟩ := m.skipToExtensions_encode more
    rw [parseSni, hskip]
    exact scanExtensions_of_drop m.extensions_lt hdrop
  · intro part hpart hne
    rw [parseSni, Option.bind_eq_bind, Option.bind_eq_none_iff]
    intro r hr
    obtain ⟨more, hmore⟩ := hpart
    obtain ⟨hall, hend⟩ := skipToExtensions_append hr more
    -- in the whole record the extensions end where it does, which is past the end of the part
    obtain ⟨p, hskip, -, hlen⟩ := m.skipToExtensions_encode []
    rw [List.append_nil, ← hmore, hall, Option.some.injEq] at hskip
    rw [hskip, hlen] at hend
    exact absurd (List.IsPrefix.eq_of_length_le ⟨more, hmore⟩ hend) hne

/-- A ClientHello with an extension before the name and an entry of another type. -/
def ClientHelloRecord.plain : ClientHelloRecord where
  recordVersion := #v[3, 1]
  clientVersion := #v[3, 3]
  random := Vector.replicate 32 7
  sessionId := []
  cipherSuites := [0x13, 0x01]
  compressions := [0]
  extensions := [.other 10 [0, 29] (by decide) (by decide), .serverName [⟨1, [9]⟩, ⟨0, [97, 98]⟩]]
  sessionId_lt := by decide
  cipherSuites_lt := by decide
  compressions_lt := by decide
  extensions_lt := by decide

theorem parseSni_encode_plain :
    parseSni (ClientHelloRecord.plain.encode ++ [0xff]) = some ['a', 'b'] ∧
      parseSni ClientHelloRecord.plain.encode.dropLast = none := by
  obtain ⟨hfound, hpart⟩ := parseSni_encode ClientHelloRecord.plain
  have hlast : ClientHelloRecord.plain.encode.dropLast <+: ClientHelloRecord.plain.encode :=
    List.dropLast_prefix _
  refine ⟨?_, hpart _ hlast (by decide)⟩
  rw [hfound]
  decide

end Tuyau
