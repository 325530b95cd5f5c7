import Mathlib.Data.List.Basic
import Mathlib.Data.List.DropRight
import Mathlib.Data.List.TakeWhile
import Tuyau.AsciiText

/-! # Headers and URIs of HTTP requests

The values of the `http` crate that a proxy works on.  A `HeaderMap` is a multimap from lower-case names
to values, of which only the values of one name have an order.  A `Uri` is what a request is for: an
absolute URI, a path with its query, or an authority alone, kept apart by the fields of the structure;
`parse` reads one and `toText` writes it.

`originTarget` is the request target in origin form that goes with a URI, or `*`.  A path parses to
itself (`parse_path`), an absolute URI to its parts (`parse_http`), and `intoOriginForm` strips a URI to
what follows its authority (`toText_intoOriginForm`). -/

namespace Http

open AsciiText

/-- The bytes of a string. -/
def utf8 (t : Text) : List UInt8 := t.flatMap String.utf8EncodeChar

@[simp] theorem utf8_append (s t : Text) : utf8 (s ++ t) = utf8 s ++ utf8 t := List.flatMap_append

/-! ### Headers -/

/-- The headers of a message, one entry for each value. -/
structure HeaderMap where
  entries : List (Text × List UInt8)
deriving DecidableEq

namespace HeaderMap

/-- All values of a name. -/
def getAll (m : HeaderMap) (name : Text) : List (List UInt8) :=
  (m.entries.filter fun e => e.1 = name).map Prod.snd

/-- The first value of a name. -/
def get (m : HeaderMap) (name : Text) : Option (List UInt8) := (m.getAll name).head?

def containsKey (m : HeaderMap) (name : Text) : Bool := m.entries.any fun e => e.1 = name

def remove (m : HeaderMap) (name : Text) : HeaderMap := ⟨m.entries.filter fun e => e.1 ≠ name⟩

/-- One more value of a name. -/
def append (m : HeaderMap) (name : Text) (value : List UInt8) : HeaderMap :=
  ⟨m.entries ++ [(name, value)]⟩

/-- One value in place of all values of a name. -/
def insert (m : HeaderMap) (name : Text) (value : List UInt8) : HeaderMap :=
  (m.remove name).append name value

variable (m : HeaderMap) {name other : Text} (value : List UInt8)

@[simp] theorem getAll_append_self (name : Text) :
    (m.append name value).getAll name = m.getAll name ++ [value] := by
  simp [getAll, append]

@[simp] theorem getAll_append_of_ne (h : name ≠ other) :
    (m.append other value).getAll name = m.getAll name := by
  simp [getAll, append, Ne.symm h]

@[simp] theorem getAll_remove_self (name : Text) : (m.remove name).getAll name = [] := by
  simp [getAll, remove, List.filter_filter]

@[simp] theorem getAll_remove_of_ne (h : name ≠ other) :
    (m.remove other).getAll name = m.getAll name := by
  rw [getAll, getAll, remove, List.filter_filter]
  congr 1
  refine List.filter_congr fun e _ => ?_
  by_cases he : e.1 = name
  · simp [he, h]
  · simp [he]

@[simp] theorem getAll_insert_self (name : Text) : (m.insert name value).getAll name = [value] := by
  rw [insert, getAll_append_self, getAll_remove_self, List.nil_append]

@[simp] theorem getAll_insert_of_ne (h : name ≠ other) :
    (m.insert other value).getAll name = m.getAll name := by
  rw [insert, getAll_append_of_ne _ _ h, getAll_remove_of_ne _ h]

theorem containsKey_eq (name : Text) : m.containsKey name = !(m.getAll name).isEmpty := by
  rw [containsKey, getAll, Bool.eq_iff_iff]
  simp [List.any_eq_true, List.filter_eq_nil_iff]

end HeaderMap

/-- `HeaderValue::from_str`: no control characters but the tab. -/
def headerValue (t : Text) : Option (List UInt8) :=
  if (utf8 t).all fun b => 32 ≤ b && b ≠ 127 || b = 9 then some (utf8 t) else none

/-- `HeaderValue::to_str`: visible ASCII only. -/
def headerText (value : List UInt8) : Option Text :=
  if value.all fun b => 32 ≤ b && b < 127 || b = 9 then some (value.map fun b => Char.ofNat b.toNat)
  else none

/-! ### URIs -/

/-- The longest URI, in bytes. -/
def maxUriLen : ℕ := 65534

/-- The length of a string in bytes. -/
def byteLen (t : Text) : ℕ := (utf8 t).length

@[simp] theorem byteLen_append (s t : Text) : byteLen (s ++ t) = byteLen s + byteLen t := by
  rw [byteLen, utf8_append, List.length_append, byteLen, byteLen]

/-- What ends an authority. -/
def endsAuthority (c : Char) : Bool := c = '/' || c = '?' || c = '#'

/-- The characters of an authority that have no meaning of their own. -/
def isAuthorityChar (c : Char) : Bool :=
  c.isAlphanum || c.toNat = 0x27 ||
    c ∈ ['!', '$', '&', '(', ')', '*', '+', ',', '-', '.', ';', '=', '_', '~']

/-- What is known of an authority up to some character. -/
structure AuthorityScan where
  colons : ℕ
  startBracket : Bool
  endBracket : Bool
  hasPercent : Bool
  atSignLast : Bool
deriving DecidableEq

def AuthorityScan.start : AuthorityScan := ⟨0, false, false, false, false⟩

/-- One character of an authority. -/
def AuthorityScan.step (s : AuthorityScan) (c : Char) : Option AuthorityScan :=
  if c = ':' then
    if 8 ≤ s.colons then none else some { s with colons := s.colons + 1, atSignLast := false }
  else if c = '[' then
    if s.hasPercent || s.startBracket then none
    else some { s with startBracket := true, atSignLast := false }
  else if c = ']' then
    if !s.startBracket || s.endBracket then none
    -- the colons and the percent sign belonged to an IPv6 address
    else some { s with endBracket := true, colons := 0, hasPercent := false, atSignLast := false }
  else if c = '@' then
    -- they belonged to the user information
    some { s with colons := 0, hasPercent := false, atSignLast := true }
  else if c = '%' then some { s with hasPercent := true, atSignLast := false }
  else if isAuthorityChar c then some { s with atSignLast := false }
  else none

/-- The characters up to the end of an authority form one. -/
def isAuthority (t : Text) : Bool :=
  match t.foldlM AuthorityScan.step .start with
  | none => false
  | some s => s.startBracket = s.endBracket && s.colons ≤ 1 && !s.atSignLast && !s.hasPercent

theorem AuthorityScan.step_plain {s : AuthorityScan} (hs : s.atSignLast = false) {c : Char}
    (hc : isAuthorityChar c = true) : s.step c = some s := by
  have hne : ∀ d, isAuthorityChar d = false → c ≠ d := by
    rintro d hd rfl
    rw [hc] at hd
    exact absurd hd (by decide)
  rw [AuthorityScan.step, if_neg (hne _ (by decide)), if_neg (hne _ (by decide)),
    if_neg (hne _ (by decide)), if_neg (hne _ (by decide)), if_neg (hne _ (by decide)), if_pos hc, ← hs]

/-- Plain characters and colons leave everything but the number of colons as it is. -/
theorem AuthorityScan.foldlM_plain {t : Text} (h : ∀ c ∈ t, c = ':' ∨ isAuthorityChar c = true)
    {s : AuthorityScan} (hs : s.atSignLast = false) (hcount : s.colons + t.count ':' ≤ 8) :
    t.foldlM AuthorityScan.step s = some { s with colons := s.colons + t.count ':' } := by
  induction t generalizing s with
  | nil => rfl
  | cons c t ih =>
      have ht : ∀ c ∈ t, c = ':' ∨ isAuthorityChar c = true :=
        fun c hc => h c (List.mem_cons_of_mem _ hc)
      rw [List.foldlM_cons]
      by_cases hc : c = ':'
      · subst hc
        rw [List.count_cons_self] at hcount ⊢
        have hstep : s.step ':' = some { s with colons := s.colons + 1, atSignLast := false } := by
          rw [AuthorityScan.step, if_pos rfl, if_neg (by omega)]
        rw [hstep, Option.bind_eq_bind, Option.bind_some, ih ht rfl (by dsimp only; omega)]
        simp only [hs, Nat.add_assoc, Nat.add_comm 1]
      · rw [List.count_cons_of_ne hc] at hcount ⊢
        have hplain := (h c List.mem_cons_self).resolve_left hc
        rw [AuthorityScan.step_plain hs hplain, Option.bind_eq_bind, Option.bind_some,
          ih ht hs hcount]

/-- Plain characters with at most one colon are an authority. -/
theorem isAuthority_of_plain {t : Text} (h : ∀ c ∈ t, c = ':' ∨ isAuthorityChar c = true)
    (hcount : t.count ':' ≤ 1) : isAuthority t = true := by
  have hscan := AuthorityScan.foldlM_plain h (s := .start) rfl (by
    change 0 + _ ≤ 8
    omega)
  rw [isAuthority, hscan]
  simpa [AuthorityScan.start] using hcount

/-- A percent sign among them is the start of a zone. -/
theorem AuthorityScan.foldlM_zone {t zone : Text} (h : ∀ c ∈ t, c = ':' ∨ isAuthorityChar c = true)
    (hcount : t.count ':' ≤ 8) (hzone : ∀ c ∈ zone, isAuthorityChar c = true) :
    (t ++ '%' :: zone).foldlM AuthorityScan.step ⟨0, true, false, false, false⟩ =
      some ⟨t.count ':', true, false, true, false⟩ := by
  have ht := AuthorityScan.foldlM_plain h (s := ⟨0, true, false, false, false⟩) rfl (by
    dsimp only
    omega)
  have hno : ':' ∉ zone := fun hc => absurd (hzone _ hc) (by decide)
  have hz := AuthorityScan.foldlM_plain (t := zone) (fun c hc => .inr (hzone c hc))
    (s := ⟨t.count ':', true, false, true, false⟩) rfl (by
      rw [List.count_eq_zero.mpr hno]
      exact hcount)
  have hpercent : AuthorityScan.step ⟨t.count ':', true, false, false, false⟩ '%' =
      some ⟨t.count ':', true, false, true, false⟩ := rfl
  rw [List.count_eq_zero.mpr hno] at hz
  simp only [Nat.zero_add] at ht
  rw [List.foldlM_append, ht, Option.bind_eq_bind, Option.bind_some, List.foldlM_cons, hpercent]
  exact hz

/-- So is what is in brackets, followed by plain characters with at most one colon. -/
theorem isAuthority_of_bracket {inner port : Text} {n : ℕ} {percent : Bool}
    (hinner : inner.foldlM AuthorityScan.step ⟨0, true, false, false, false⟩ =
      some ⟨n, true, false, percent, false⟩)
    (hport : ∀ c ∈ port, c = ':' ∨ isAuthorityChar c = true) (hcolon : port.count ':' ≤ 1) :
    isAuthority ('[' :: inner ++ ']' :: port) = true := by
  have hopen : AuthorityScan.start.step '[' = some ⟨0, true, false, false, false⟩ := rfl
  have hclose : AuthorityScan.step ⟨n, true, false, percent, false⟩ ']' =
      some ⟨0, true, true, false, false⟩ := rfl
  have houter := AuthorityScan.foldlM_plain hport (s := ⟨0, true, true, false, false⟩) rfl (by
    dsimp only
    omega)
  simp only [Nat.zero_add] at houter
  have hscan : ('[' :: inner ++ ']' :: port).foldlM AuthorityScan.step .start =
      some ⟨port.count ':', true, true, false, false⟩ := by
    rw [List.foldlM_append, List.foldlM_cons, hopen]
    simp only [Option.bind_eq_bind, Option.bind_some, hinner, List.foldlM_cons, hclose, houter]
  rw [isAuthority, hscan]
  simpa using hcolon

/-! ### Host and port -/

/-- The host of an authority: what is left of it without the user information and the port. -/
def authorityHost (a : Text) : Text :=
  match a.rtakeWhile fun c => c ≠ '@' with
  | '[' :: rest => '[' :: (rest.takeWhile fun c => c ≠ ']') ++ [']']
  | hostPort => hostPort.takeWhile fun c => c ≠ ':'

/-- `u16::from_str`. -/
def parseU16 (t : Text) : Option UInt16 :=
  let digits := if t.head? = some '+' then t.drop 1 else t
  if digits ≠ [] ∧ digits.all Char.isDigit ∧ Nat.ofDigitChars 10 digits 0 < UInt16.size then
    some (UInt16.ofNat (Nat.ofDigitChars 10 digits 0))
  else none

/-- The port of an authority: the number after its last colon. -/
def authorityPort (a : Text) : Option UInt16 :=
  if ':' ∈ a then parseU16 (a.rtakeWhile fun c => c ≠ ':') else none

/-- A host without brackets and user information ends at the port. -/
theorem authorityHost_plain {a : Text} (hat : '@' ∉ a) (hbracket : a.head? ≠ some '[') :
    authorityHost a = a.takeWhile fun c => c ≠ ':' := by
  have hall : (a.rtakeWhile fun c => c ≠ '@') = a :=
    List.rtakeWhile_eq_self_iff.mpr fun c hc => decide_eq_true fun h => hat (h ▸ hc)
  rw [authorityHost, hall]
  split
  · next rest => simp at hbracket
  · rfl

/-- A host in brackets. -/
theorem authorityHost_bracket {host port : Text} (hat : '@' ∉ host ++ port) (hclose : ']' ∉ host) :
    authorityHost ('[' :: host ++ ']' :: port) = '[' :: host ++ [']'] := by
  have hall : (('[' :: host ++ ']' :: port).rtakeWhile fun c => c ≠ '@') = '[' :: host ++ ']' :: port := by
    refine List.rtakeWhile_eq_self_iff.mpr fun c hc => decide_eq_true ?_
    rintro rfl
    simp at hc hat
    tauto
  have hhost : ∀ c ∈ host, (decide (c ≠ ']')) = true := fun c hc => decide_eq_true fun h => hclose (h ▸ hc)
  rw [authorityHost, hall]
  change '[' :: ((host ++ ']' :: port).takeWhile fun c => c ≠ ']') ++ [']'] = _
  rw [List.takeWhile_append_of_pos hhost, List.takeWhile_cons_of_neg (by simp), List.append_nil]

theorem parseU16_decimal (n : UInt16) : parseU16 (Nat.toDigits 10 n.toNat) = some n := by
  have hdigit : ∀ c ∈ Nat.toDigits 10 n.toNat, c.isDigit = true :=
    fun c hc => Nat.isDigit_of_mem_toDigits (by decide) (by decide) hc
  have hplus : ¬ (Nat.toDigits 10 n.toNat).head? = some '+' := fun h =>
    absurd (hdigit '+' (List.mem_of_head? h)) (by decide)
  have hn := n.toNat_lt
  rw [parseU16, if_neg hplus, Nat.ofDigitChars_ten_toDigits,
    if_pos ⟨Nat.toDigits_ne_nil, List.all_eq_true.mpr hdigit, hn⟩, UInt16.ofNat_toNat]

theorem authorityPort_decimal (host : Text) (n : UInt16) :
    authorityPort (host ++ ':' :: Nat.toDigits 10 n.toNat) = some n := by
  have hdigit : ∀ c ∈ Nat.toDigits 10 n.toNat, decide (c ≠ ':') = true := by
    intro c hc
    refine decide_eq_true ?_
    rintro rfl
    exact absurd (Nat.isDigit_of_mem_toDigits (by decide) (by decide) hc) (by decide)
  have hlast : ((host ++ ':' :: Nat.toDigits 10 n.toNat).rtakeWhile fun c => c ≠ ':') =
      Nat.toDigits 10 n.toNat := by
    rw [List.rtakeWhile, List.reverse_append, List.reverse_cons, List.append_assoc,
      List.takeWhile_append_of_pos fun c hc => hdigit c (List.mem_reverse.mp hc)]
    simp
  rw [authorityPort, if_pos (by simp), hlast, parseU16_decimal]

/-- The characters of a path. -/
def isPathChar (c : Char) : Bool :=
  let n := c.toNat
  n = 0x21 || 0x24 ≤ n && n ≤ 0x3b || n = 0x3d || 0x40 ≤ n && n ≤ 0x5f || 0x61 ≤ n && n ≤ 0x7a ||
    n = 0x7c || 0x7e ≤ n || n = 0x22 || n = 0x7b || n = 0x7d

/-- The characters of a query. -/
def isQueryChar (c : Char) : Bool :=
  let n := c.toNat
  n = 0x21 || 0x24 ≤ n && n ≤ 0x3b || n = 0x3d || 0x3f ≤ n

/-- The characters of a path and its query are allowed. -/
def isPathAndQuery (t : Text) : Bool :=
  (t.takeWhile fun c => c ≠ '?').all isPathChar &&
    ((t.dropWhile fun c => c ≠ '?').drop 1).all isQueryChar

/-- A path and its query, without the fragment. -/
def parsePathAndQuery (t : Text) : Option Text :=
  let t := t.takeWhile fun c => c ≠ '#'
  if isPathAndQuery t then some t else none

theorem parsePathAndQuery_idem {t d : Text} (h : parsePathAndQuery t = some d) :
    parsePathAndQuery d = some d := by
  rw [parsePathAndQuery] at h
  split_ifs at h with hvalid
  obtain rfl := Option.some.inj h
  rw [parsePathAndQuery, List.takeWhile_idem, if_pos hvalid]

theorem parsePathAndQuery_ne_nil {t d : Text} (ht : t.head? = some '/')
    (h : parsePathAndQuery t = some d) : d ≠ [] := by
  obtain ⟨t, rfl⟩ := List.head?_eq_some_iff.mp ht
  rw [parsePathAndQuery] at h
  split_ifs at h
  rw [← Option.some.inj h, List.takeWhile_cons_of_pos (by decide)]
  exact List.cons_ne_nil _ _

theorem slash_not_mem_takeWhile (t : Text) : '/' ∉ t.takeWhile fun c => !endsAuthority c :=
  fun h => absurd (List.mem_takeWhile_imp h) (by decide)

/-- The scheme of a URI, if it has one, and what follows it. -/
def parseScheme (t : Text) : Option (Option Text × Text) :=
  if toAsciiLowercase (t.take 7) = ['h', 't', 't', 'p', ':', '/', '/'] then
    some (some ['h', 't', 't', 'p'], t.drop 7)
  else if toAsciiLowercase (t.take 8) = ['h', 't', 't', 'p', 's', ':', '/', '/'] then
    some (some ['h', 't', 't', 'p', 's'], t.drop 8)
  else
    let scheme := t.takeWhile fun c => c.isAlphanum || c ∈ ['+', '-', '.']
    match t.drop scheme.length with
    | ':' :: '/' :: '/' :: rest =>
        if 64 < scheme.length then none else some (some scheme, rest)
    | _ => some (none, t)

/-- A URI: an absolute one, or without a scheme a path with its query or an authority alone; `data` is the
path and query, if any. -/
structure Uri where
  scheme : Option Text
  authority : Option Text
  data : Text
  authority_ne : ∀ a ∈ authority, a ≠ [] ∧ '/' ∉ a
  form : scheme = none → (data = [] ↔ authority.isSome)
  valid : parsePathAndQuery data = some data

namespace Uri

/-- A path with its query. -/
def ofPath (data : Text) (hne : data ≠ []) (valid : parsePathAndQuery data = some data) : Uri where
  scheme := none
  authority := none
  data := data
  authority_ne := by simp
  form := by simp [hne]
  valid := valid

/-- The target of a request about the server as a whole. -/
def asterisk : Uri := ofPath ['*'] (by simp) (by decide)

/-- An authority alone. -/
def ofAuthority (a : Text) (ha : a ≠ [] ∧ '/' ∉ a) : Uri where
  scheme := none
  authority := some a
  data := []
  authority_ne := by simpa using ha
  form := by simp
  valid := rfl

/-- An absolute URI. -/
def absolute (scheme a data : Text) (ha : a ≠ [] ∧ '/' ∉ a)
    (valid : parsePathAndQuery data = some data) : Uri where
  scheme := some scheme
  authority := some a
  data := data
  authority_ne := by simpa using ha
  form := by simp
  valid := valid

/-- Read a URI. -/
def parse (t : Text) : Option Uri :=
  if maxUriLen < byteLen t then none
  else if t = ['*'] then some (ofPath ['*'] (by simp) (by decide))
  else if ht : t.head? = some '/' then
    match h : parsePathAndQuery t with
    | none => none
    | some data =>
        some (ofPath data (parsePathAndQuery_ne_nil ht h) (parsePathAndQuery_idem h))
  else
    match parseScheme t with
    | none => none
    | some (scheme, rest) =>
        let a := rest.takeWhile fun c => !endsAuthority c
        if ha : a ≠ [] ∧ isAuthority a then
          have ha : a ≠ [] ∧ '/' ∉ a := ⟨ha.1, slash_not_mem_takeWhile rest⟩
          match scheme with
          | none => if a = rest then some (ofAuthority a ha) else none
          | some scheme =>
              match h : parsePathAndQuery (rest.dropWhile fun c => !endsAuthority c) with
              | none => none
              | some data => some (absolute scheme a data ha (parsePathAndQuery_idem h))
        else none

def host (u : Uri) : Option Text := u.authority.map authorityHost

def port (u : Uri) : Option UInt16 := u.authority.bind authorityPort

/-- The path with its query; an authority alone has none. -/
def pathAndQuery (u : Uri) : Option Text :=
  if u.scheme.isSome || u.authority.isNone then some (if u.data.isEmpty then ['/'] else u.data)
  else none

def path (u : Uri) : Text :=
  if u.data.isEmpty && u.scheme.isNone then []
  else
    let path := u.data.takeWhile fun c => c ≠ '?'
    if path.isEmpty then ['/'] else path

def query (u : Uri) : Option Text := (splitOnce '?' u.data).map Prod.snd

/-- Write a URI. -/
def toText (u : Uri) : Text :=
  (u.scheme.elim [] fun scheme => scheme ++ [':', '/', '/']) ++ u.authority.getD [] ++ u.path ++
    u.query.elim [] fun query => '?' :: query

/-- The path and query of a URI as a URI by themselves, as an HTTP client sends them to an origin. -/
def intoOriginForm (u : Uri) : Uri :=
  if h : u.data = [] then ofPath ['/'] (by simp) (by decide) else ofPath u.data h u.valid

/-- The request target in origin form, or `*`; a path that starts with anything else has none. -/
def originTarget (u : Uri) : Option Text :=
  match u.data with
  | [] => some ['/']
  | '/' :: t => some ('/' :: t)
  | '?' :: t => some ('/' :: '?' :: t)
  | ['*'] => some ['*']
  | _ => none

/-- A URI without scheme and authority. -/
def isPathOnly (u : Uri) : Bool := u.scheme.isNone && u.authority.isNone

/-! ### What is written -/

/-- What is written of a path and its query. -/
theorem path_append_query (t : Text) :
    (t.takeWhile fun c => c ≠ '?') ++ ((splitOnce '?' t).map Prod.snd).elim [] (fun q => '?' :: q) =
      t := by
  induction t with
  | nil => rfl
  | cons c t ih =>
      by_cases hc : c = '?'
      · simp [splitOnce, hc]
      · rw [List.takeWhile_cons_of_pos (by simpa using hc), List.cons_append, splitOnce, if_neg hc]
        congr 1
        rw [Option.map_map]
        exact ih

/-- The last part of a URI as it is written. -/
theorem path_query {u : Uri} (h : u.data ≠ [] ∨ u.scheme ≠ none) :
    u.path ++ u.query.elim [] (fun q => '?' :: q) =
      if u.data = [] ∨ u.data.head? = some '?' then '/' :: u.data else u.data := by
  have hhas : ¬ (u.data.isEmpty && u.scheme.isNone) = true := by
    rw [Bool.and_eq_true, List.isEmpty_iff, Option.isNone_iff_eq_none]
    tauto
  have hall := path_append_query u.data
  rw [path, if_neg hhas, query]
  cases hd : u.data with
  | nil => rfl
  | cons c t =>
      rw [hd] at hall
      by_cases hc : c = '?'
      · simp [hc, splitOnce]
      · simp only [List.takeWhile_cons, hc, ne_eq, not_false_eq_true, decide_true, if_true,
          List.isEmpty_cons, Bool.false_eq_true, if_false, List.head?_cons, Option.some.injEq,
          reduceCtorEq, or_self] at hall ⊢
        exact hall

/-- The origin form of a URI is what is written of its last part. -/
theorem path_query_of_originTarget {u : Uri} {target : Text} (h : u.originTarget = some target) :
    (if u.data = [] ∨ u.data.head? = some '?' then '/' :: u.data else u.data) = target := by
  rw [originTarget] at h
  split at h
  · next hd => rw [hd, if_pos (.inl rfl), ← Option.some.inj h]
  · next t hd => rw [hd, if_neg (by simp), Option.some.inj h]
  · next t hd => rw [hd, if_pos (.inr rfl), Option.some.inj h]
  · next hd => rw [hd, if_neg (by simp), Option.some.inj h]
  · simp at h

theorem ne_nil_of_isPathOnly {u : Uri} (h : u.isPathOnly = true) : u.data ≠ [] := by
  simp only [isPathOnly, Bool.and_eq_true, Option.isNone_iff_eq_none] at h
  intro hd
  have := (u.form h.1).mp hd
  simp [h.2] at this

/-- A path with an origin form is written in it. -/
theorem toText_of_isPathOnly {u : Uri} {target : Text} (h : u.isPathOnly = true)
    (ht : u.originTarget = some target) : u.toText = target := by
  have hlast := path_query (.inl (ne_nil_of_isPathOnly h))
  rw [path_query_of_originTarget ht] at hlast
  simp only [isPathOnly, Bool.and_eq_true, Option.isNone_iff_eq_none] at h
  rw [toText, h.1, h.2]
  exact hlast

/-- Any other URI is not. -/
theorem toText_ne {u : Uri} {target : Text} (h : u.isPathOnly = false)
    (ht : u.originTarget = some target) : u.toText ≠ target := by
  cases hs : u.scheme with
  | some scheme =>
      have hlast := path_query (u := u) (.inr (by simp [hs]))
      rw [path_query_of_originTarget ht] at hlast
      intro heq
      have hlen := congrArg List.length heq
      rw [toText, List.append_assoc, hlast, hs] at hlen
      simp only [Option.elim, List.length_append, List.length_cons, List.length_nil] at hlen
      omega
  | none =>
      cases ha : u.authority with
      | none => simp [isPathOnly, hs, ha] at h
      | some a =>
          have hd : u.data = [] := (u.form hs).mpr (by simp [ha])
          have hslash := (u.authority_ne a ha).2
          rintro rfl
          simp [originTarget, hd, toText, hs, ha, path, query, splitOnce] at ht
          simp [← ht] at hslash

/-! ### What is read -/

/-- The path and query of a URI, or `/`. -/
theorem pathAndQuery_getD (u : Uri) :
    u.pathAndQuery.getD ['/'] = if u.data = [] then ['/'] else u.data := by
  by_cases hd : u.data = []
  · rw [if_pos hd, pathAndQuery, hd]
    simp only [List.isEmpty_nil, if_true]
    split_ifs <;> rfl
  · have hform : (u.scheme.isSome || u.authority.isNone) = true := by
      by_contra hnot
      simp only [Bool.or_eq_true, Option.isSome_iff_ne_none, Option.isNone_iff_eq_none, not_or,
        ne_eq, not_not] at hnot
      exact hd ((u.form hnot.1).mpr (Option.isSome_iff_ne_none.mpr hnot.2))
    rw [if_neg hd, pathAndQuery, if_pos hform, if_neg (by simpa using hd), Option.getD_some]

theorem parse_path {t : Text} (ht : t.head? = some '/') (hvalid : parsePathAndQuery t = some t)
    (hlen : byteLen t ≤ maxUriLen) :
    ∃ u, parse t = some u ∧ u.isPathOnly = true ∧ u.data = t := by
  have hstar : t ≠ ['*'] := by
    rintro rfl
    simp at ht
  refine ⟨ofPath t (parsePathAndQuery_ne_nil ht hvalid) hvalid, ?_, rfl, rfl⟩
  rw [parse, if_neg (Nat.not_lt.mpr hlen), if_neg hstar, dif_pos ht]
  grind

theorem parse_star : ∃ u, parse ['*'] = some u ∧ u.isPathOnly = true ∧ u.data = ['*'] :=
  ⟨_, rfl, rfl, rfl⟩

/-- A query alone is no URI. -/
theorem parse_query (t : Text) : parse ('?' :: t) = none := by
  have hscheme : parseScheme ('?' :: t) = some (none, '?' :: t) := by
    have hlower : '?'.toLower = '?' := by decide
    simp [parseScheme, toAsciiLowercase, hlower]
  rw [parse, hscheme]
  split_ifs with hlen hstar ht
  · rfl
  · simp at hstar
  · simp at ht
  · simp [endsAuthority]

/-- What starts an `http` URI. -/
def httpScheme : Text := ['h', 't', 't', 'p', ':', '/', '/']

/-- The path and query that an `http` URI is read with. -/
theorem parse_http (rest : Text) :
    (parse (httpScheme ++ rest)).map data =
      if maxUriLen < byteLen (httpScheme ++ rest) then none
      else if (rest.takeWhile fun c => !endsAuthority c) ≠ [] ∧
          isAuthority (rest.takeWhile fun c => !endsAuthority c) then
        parsePathAndQuery (rest.dropWhile fun c => !endsAuthority c)
      else none := by
  have hscheme : parseScheme (httpScheme ++ rest) = some (some ['h', 't', 't', 'p'], rest) := by
    simp [parseScheme, toAsciiLowercase, httpScheme]
  have hstar : httpScheme ++ rest ≠ ['*'] := by simp [httpScheme]
  have hslash : ¬ (httpScheme ++ rest).head? = some '/' := by simp [httpScheme]
  rw [parse, hscheme]
  split_ifs with hlen ha
  · rfl
  · dsimp only
    rw [dif_pos ha]
    split
    · next h => rw [h, Option.map_none]
    · next h => exact h.symm
  · dsimp only
    rw [dif_neg ha, Option.map_none]

/-- Its scheme and authority. -/
theorem authority_of_parse_http {rest : Text} {u : Uri} (h : parse (httpScheme ++ rest) = some u) :
    u.scheme = some ['h', 't', 't', 'p'] ∧
      u.authority = some (rest.takeWhile fun c => !endsAuthority c) := by
  have hscheme : parseScheme (httpScheme ++ rest) = some (some ['h', 't', 't', 'p'], rest) := by
    simp [parseScheme, toAsciiLowercase, httpScheme]
  rw [parse, hscheme] at h
  split_ifs at h with hlen hstar hslash
  · simp [httpScheme] at hstar
  · simp [httpScheme] at hslash
  · dsimp only at h
    split_ifs at h with ha
    split at h
    · simp at h
    · rw [← Option.some.inj h]
      exact ⟨rfl, rfl⟩

/-- What a path or a query alone starts with. -/
def startsPath (c : Char) : Bool := c = '/' || c = '?'

/-- What follows an authority is a path, a query or a fragment, and the fragment is left out. -/
theorem startsPath_of_parsePathAndQuery {t d : Text} (h : parsePathAndQuery t = some d)
    (hends : ∀ c ∈ t.head?, endsAuthority c = true) : ∀ c ∈ d.head?, startsPath c = true := by
  intro c hc
  rw [parsePathAndQuery] at h
  split_ifs at h
  rw [← Option.some.inj h] at hc
  cases t with
  | nil => simp at hc
  | cons x t =>
      have hx := hends x rfl
      by_cases hhash : x = '#'
      · simp [hhash] at hc
      · have hfirst : x = c := by simpa [hhash] using hc
        simpa [endsAuthority, startsPath, hhash, ← hfirst] using hx

/-- Of all texts that can be read only `*` has a path that starts with anything else. -/
theorem startsPath_of_parse {t : Text} {u : Uri} (h : parse t = some u) (hstar : t ≠ ['*']) :
    ∀ c ∈ u.data.head?, startsPath c = true := by
  rw [parse, if_neg hstar] at h
  split_ifs at h with hlen hslash
  · split at h
    · simp at h
    · next data hdata =>
        rw [← Option.some.inj h]
        refine startsPath_of_parsePathAndQuery hdata fun c hc => ?_
        rw [hslash] at hc
        rw [← Option.some.inj hc]
        decide
  · split at h
    · simp at h
    · next scheme rest _ =>
        have hends : ∀ c ∈ (rest.dropWhile fun c => !endsAuthority c).head?, endsAuthority c = true := by
          intro c hc
          rw [← List.find?_eq_head?_dropWhile_not] at hc
          exact List.find?_some hc
        dsimp only at h
        by_cases ha : (rest.takeWhile fun c => !endsAuthority c) ≠ [] ∧
            isAuthority (rest.takeWhile fun c => !endsAuthority c)
        · rw [dif_pos ha] at h
          cases scheme with
          | none =>
              dsimp only at h
              split_ifs at h
              rw [← Option.some.inj h]
              simp [ofAuthority]
          | some scheme =>
              dsimp only at h
              split at h
              · simp at h
              · next data hdata =>
                  rw [← Option.some.inj h]
                  exact startsPath_of_parsePathAndQuery hdata hends
        · rw [dif_neg ha] at h
          cases h

/-- What a client sends of a URI, if it has an origin form. -/
theorem toText_intoOriginForm {u : Uri} {target : Text} (ht : u.originTarget = some target) :
    u.intoOriginForm.toText = target := by
  rw [intoOriginForm]
  split_ifs with hd
  · rw [originTarget, hd] at ht
    rw [← Option.some.inj ht]
    rfl
  · exact toText_of_isPathOnly rfl ht

end Uri

end Http
