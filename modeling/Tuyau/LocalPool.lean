import Tuyau.Preservation
import Tuyau.Utf8Lossy

/-! # The pool of connections to local upstreams

A request to a local upstream goes over a connection that `LocalPool` keeps.  The client of the pool
takes an absolute URI, whose authority is the key of the pool and names the target for the connector that
opens a connection: it is the text of a socket address, or the path of a socket in hexadecimal.  So the
target is written into a text together with the path and query of the request, and what is dialled is
read from that text again.

The main result is `reaches_target_iff`, which says for which targets and requests the URI can be read
and has the target as its authority, and the connector dials the target.  A path that starts with neither
`/` nor `?` becomes a part of the authority, so that a `*` changes the port and an `@` the host that is
dialled; a URI can be too long or, for an empty socket path, have no authority; and a socket path is dialled
as text.  The connector for TCP is a parameter, and `HttpConnector` an instance of it. -/

namespace Tuyau

open AsciiText Http

/-! ### Hexadecimal labels -/

/-- A hexadecimal digit, in either case. -/
def hexDigit (b : UInt8) : Option ℕ :=
  if 0x30 ≤ b ∧ b ≤ 0x39 then some (b.toNat - 0x30)
  else if 0x61 ≤ b ∧ b ≤ 0x66 then some (b.toNat - 0x61 + 10)
  else if 0x41 ≤ b ∧ b ≤ 0x46 then some (b.toNat - 0x41 + 10)
  else none

/-- `u8::from_str_radix(_, 16)` for two bytes; the first may be a plus sign. -/
def fromStrRadix (x y : UInt8) : Option UInt8 :=
  if x = 0x2b then (hexDigit y).map UInt8.ofNat
  else do
    let hi ← hexDigit x
    let lo ← hexDigit y
    some (UInt8.ofNat (16 * hi + lo))

/-- The pairs of bytes of a label.  A byte of a character that is not ASCII is no digit, wherever the
pair is cut. -/
def hexPairs : List UInt8 → Option (List UInt8)
  | x :: y :: rest => do
      let b ← fromStrRadix x y
      let bs ← hexPairs rest
      some (b :: bs)
  | [] => some []
  | [_] => none

/-- `hex_decode`. -/
def hexDecode (text : Text) : Option (List UInt8) :=
  if byteLen text % 2 ≠ 0 then none else hexPairs (utf8 text)

/-! ### The pool and its connectors -/

/-- A connector for TCP, by the address, or the name to look up, and the port that it dials for a URI; one
that is the text of an address is read as that address. -/
structure TcpConnector where
  dial : Uri → Option (Text × UInt16)
  dial_address : ∀ {uri : Uri} {addr : SocketAddr}, uri.scheme = some ['h', 't', 't', 'p'] →
    uri.authority = some addr.toText → dial uri = some (addr.hostText, addr.port)

/-- `UnixConnector`: the path of the socket. -/
def unixConnect (uri : Uri) : Option PathBuf := do
  let host ← uri.host
  let bytes ← hexDecode host
  some (utf8 (Utf8Lossy.lossy bytes))

/-- The connector of a target dials it. -/
def Dials (tcp : TcpConnector) (uri : Uri) : UpstreamTarget → Prop
  | .tcp addr => tcp.dial uri = some (addr.hostText, addr.port)
  | .unix path => unixConnect uri = some path

/-- A request goes to its target: the pool hands it to the client with a URI that has the target's text
as its authority and the path and query of the request, and the connector dials the target. -/
structure GoesTo (tcp : TcpConnector) (target : UpstreamTarget) (sni : Text) (req : HttpRequest) (uri : Uri) :
    Prop where
  parses : poolUri target (downgradeToH1 sni req) = some uri
  sent : poolSend target (downgradeToH1 sni req) =
    .ok { downgradeToH1 sni req with uri := uri.intoOriginForm }
  authority : uri.authority = some target.authority
  pathAndQuery : uri.pathAndQuery = some (origin req.uri)
  dials : Dials tcp uri target

def ReachesTarget (tcp : TcpConnector) (target : UpstreamTarget) (sni : Text) (req : HttpRequest) : Prop :=
  ∃ uri, GoesTo tcp target sni req uri

/-- The requests that reach a target: the path and query is empty or starts with `/` or `?`, the URI is not
too long, and the path of a socket is not empty and is UTF-8. -/
def Reachable (target : UpstreamTarget) (u : Uri) : Prop :=
  (∀ c ∈ u.data.head?, Uri.startsPath c = true) ∧
    byteLen (Uri.httpScheme ++ (target.authority ++ origin u)) ≤ maxUriLen ∧
    ∀ path, target = .unix path → path ≠ [] ∧ ∃ t : Text, utf8 t = path

/-! ### Labels read back -/

theorem hexDigit_digitChar : ∀ d < 16,
    String.utf8EncodeChar (Nat.digitChar d) = [(Nat.digitChar d).toUInt8] ∧
      hexDigit (Nat.digitChar d).toUInt8 = some d := by decide

theorem fromStrRadix_of_digits {x y b : UInt8} (hx : hexDigit x = some (b.toNat / 16))
    (hy : hexDigit y = some (b.toNat % 16)) : fromStrRadix x y = some b := by
  have hplus : x ≠ 0x2b := by
    rintro rfl
    exact absurd hx (by simp [hexDigit])
  rw [fromStrRadix, if_neg hplus, hx, hy]
  change some (UInt8.ofNat (16 * (b.toNat / 16) + b.toNat % 16)) = some b
  rw [Nat.div_add_mod, UInt8.ofNat_toNat]

theorem hexPairs_hexEncode (bs : List UInt8) : hexPairs (utf8 (hexEncode bs)) = some bs := by
  induction bs with
  | nil => rfl
  | cons b bs ih =>
      have hb := b.toNat_lt
      obtain ⟨henc₁, hdigit₁⟩ := hexDigit_digitChar (b.toNat / 16) (by omega)
      obtain ⟨henc₂, hdigit₂⟩ := hexDigit_digitChar (b.toNat % 16) (by omega)
      have hpair : utf8 (hexEncode (b :: bs)) = (Nat.digitChar (b.toNat / 16)).toUInt8 ::
          (Nat.digitChar (b.toNat % 16)).toUInt8 :: utf8 (hexEncode bs) := by
        simp only [hexEncode, utf8, List.flatMap_cons, henc₁, henc₂, List.cons_append, List.nil_append]
      rw [hpair, hexPairs, fromStrRadix_of_digits hdigit₁ hdigit₂, ih]
      rfl

theorem length_hexPairs {bs l : List UInt8} (h : hexPairs l = some bs) : l.length = 2 * bs.length := by
  fun_induction hexPairs l generalizing bs with
  | case1 x y rest ih =>
      obtain ⟨b, -, h⟩ := Option.bind_eq_some_iff.mp h
      obtain ⟨bs', hrest, h⟩ := Option.bind_eq_some_iff.mp h
      rw [← Option.some.inj h, List.length_cons, List.length_cons, List.length_cons, ih hrest]
      omega
  | case2 => rw [← Option.some.inj h]; rfl
  | case3 => cases h

/-- A label is read back. -/
theorem hexDecode_hexEncode (bs : List UInt8) : hexDecode (hexEncode bs) = some bs := by
  have hpairs := hexPairs_hexEncode bs
  rw [hexDecode, if_neg, hpairs]
  rw [byteLen, length_hexPairs hpairs]
  omega

/-! ### What the connectors read -/

section

variable {uri : Uri}

/-- No character of an address is a bracket or an at sign. -/
theorem hostText_ne {addr : SocketAddr} {c : Char} (h : c ∈ addr.hostText) :
    c ≠ '[' ∧ c ≠ ']' ∧ c ≠ '@' := by
  have hall : ('%' :: addressChars).all (fun c => c ≠ '[' && c ≠ ']' && c ≠ '@') = true := by decide
  have hc := List.all_eq_true.mp hall c (List.mem_cons.mpr (mem_hostText h))
  simpa [and_assoc] using hc

theorem dropWhile_of_ne {c : Char} {t : Text} (h : ∀ d ∈ t, d ≠ c) : (t.dropWhile fun d => d = c) = t := by
  rw [List.dropWhile_eq_self_iff]
  intro hlen hc
  exact h _ (List.getElem_mem hlen) (of_decide_eq_true hc)

/-- The brackets of a host are left out. -/
theorem trim_brackets {host : Text} (h : ∀ c ∈ host, c ≠ '[' ∧ c ≠ ']') :
    trimEndMatches ']' (host.dropWhile fun c => c = '[') = host ∧
      trimEndMatches ']' (('[' :: host ++ [']']).dropWhile fun c => c = '[') = host := by
  have hself : trimEndMatches ']' host = host :=
    trimEndMatches_eq_self fun hlast => (h _ (List.mem_of_getLast? hlast)).2 rfl
  constructor
  · rw [dropWhile_of_ne fun c hc => (h c hc).1, hself]
  · have hopen : ∀ c ∈ host ++ [']'], c ≠ '[' := by
      intro c hc
      rcases List.mem_append.mp hc with hc | hc
      · exact (h c hc).1
      · rw [List.mem_singleton.mp hc]
        decide
    rw [List.cons_append, List.dropWhile_cons_of_pos (by decide), dropWhile_of_ne hopen, trimEndMatches,
      List.rdropWhile_concat_pos _ _ _ (by decide)]
    exact hself

/-- The host and the port in the text of an address. -/
theorem host_tcp (addr : SocketAddr) :
    trimEndMatches ']' ((authorityHost addr.toText).dropWhile fun c => c = '[') = addr.hostText ∧
      authorityPort addr.toText = some addr.port := by
  have htrim := @trim_brackets addr.hostText fun c hc => ⟨(hostText_ne hc).1, (hostText_ne hc).2.1⟩
  have hne : ∀ port : UInt16, ∀ c ∈ addr.hostText ++ ':' :: IpAddr.decimal port.toNat,
      c ≠ '[' ∧ c ≠ '@' := by
    intro port c hc
    have hall : addressChars.all (fun c => c ≠ '[' && c ≠ '@') = true := by decide
    rcases List.mem_append.mp hc with hc | hc
    · exact ⟨(hostText_ne hc).1, (hostText_ne hc).2.2⟩
    · simpa using List.all_eq_true.mp hall c (mem_port hc)
  cases addr with
  | v4 a b c d port =>
      have htext : (SocketAddr.v4 a b c d port).toText =
        (SocketAddr.v4 a b c d port).hostText ++ ':' :: IpAddr.decimal port.toNat := rfl
      have hcolon : ∀ x ∈ (SocketAddr.v4 a b c d port).hostText, decide (x ≠ ':') = true := by
        intro x hx
        refine decide_eq_true ?_
        rintro rfl
        exact List.count_eq_zero.mp (IpAddr.count_dotted a b c d) hx
      have hhost : authorityHost (SocketAddr.v4 a b c d port).toText =
          (SocketAddr.v4 a b c d port).hostText := by
        rw [htext, authorityHost_plain (fun h => (hne port _ h).2 rfl)
          fun h => (hne port _ (List.mem_of_head? h)).1 rfl, List.takeWhile_append_of_pos hcolon,
          List.takeWhile_cons_of_neg (by simp), List.append_nil]
      rw [hhost, htext]
      exact ⟨htrim.1, authorityPort_decimal _ port⟩
  | v6 segments port scopeId =>
      have hhost : authorityHost (SocketAddr.v6 segments port scopeId).toText =
          '[' :: (SocketAddr.v6 segments port scopeId).hostText ++ [']'] :=
        authorityHost_bracket (fun h => (hne port _ h).2 rfl) fun h => (hostText_ne h).2.1 rfl
      refine ⟨by rw [hhost]; exact htrim.2, ?_⟩
      have hport := authorityPort_decimal (authorityHost (SocketAddr.v6 segments port scopeId).toText) port
      rw [hhost, List.append_assoc] at hport
      exact hport

/-- `HttpConnector` of hyper-util. -/
def httpConnector : TcpConnector where
  dial uri :=
    if uri.scheme ≠ some ['h', 't', 't', 'p'] then none
    else uri.host.map fun host =>
      (trimEndMatches ']' (host.dropWhile fun c => c = '['), uri.port.getD 80)
  dial_address := by
    intro uri addr hscheme h
    obtain ⟨hhost, hport⟩ := host_tcp addr
    rw [if_neg (not_not.mpr hscheme), Uri.host, Uri.port, h, Option.map_some, Option.map_some,
      Option.bind_some, hhost, hport, Option.getD_some]

theorem host_of_label {path : PathBuf} (h : uri.authority = some (hexEncode path)) :
    uri.host = some (hexEncode path) := by
  have hat : '@' ∉ hexEncode path := fun h => absurd (mem_hexEncode h) (by decide)
  have hbracket : (hexEncode path).head? ≠ some '[' := fun h =>
    absurd (mem_hexEncode (List.mem_of_head? h)) (by decide)
  rw [Uri.host, h, Option.map_some, authorityHost_plain hat hbracket, List.takeWhile_eq_self_iff.mpr]
  rintro c hc
  refine decide_eq_true ?_
  rintro rfl
  exact absurd (mem_hexEncode hc) (by decide)

/-- The connector for sockets dials the text that the path is read as, which is the path if it is UTF-8. -/
theorem unixConnect_eq_iff {path : PathBuf} (h : uri.host = some (hexEncode path)) :
    unixConnect uri = some path ↔ ∃ t : Text, utf8 t = path := by
  have hdial : unixConnect uri = some (utf8 (Utf8Lossy.lossy path)) := by
    rw [unixConnect, h]
    change (hexDecode (hexEncode path)).bind _ = _
    rw [hexDecode_hexEncode]
    rfl
  constructor
  · intro hpath
    exact ⟨_, Option.some.inj (hdial.symm.trans hpath)⟩
  · rintro ⟨t, rfl⟩
    exact hdial.trans (congrArg (some ∘ utf8) (Utf8Lossy.lossy_encode t))

end

/-! ### What reaches its target -/

section

variable {tcp : TcpConnector} {target : UpstreamTarget} {sni : Text} {req : HttpRequest} {uri : Uri}

theorem poolSend_of_poolUri (h : poolUri target req = some uri) :
    poolSend target req = .ok { req with uri := uri.intoOriginForm } := by
  rw [poolSend, h]

/-- The URI of the pool, in terms of that of the request. -/
theorem poolUri_downgradeToH1 :
    poolUri target (downgradeToH1 sni req) =
      Uri.parse (Uri.httpScheme ++ (target.authority ++ origin (downgraded req.uri))) :=
  rfl

/-- The connectors dial the target that the authority names, if the path of a socket is UTF-8. -/
theorem dials_of_authority (hscheme : uri.scheme = some ['h', 't', 't', 'p'])
    (h : uri.authority = some target.authority) :
    Dials tcp uri target ↔ ∀ path, target = .unix path → ∃ t : Text, utf8 t = path := by
  cases target with
  | tcp addr => exact iff_of_true (tcp.dial_address hscheme h) (by simp)
  | unix path =>
      have hdial := unixConnect_eq_iff (host_of_label h)
      constructor
      · intro hpath path' hpath'
        obtain rfl := UpstreamTarget.unix.inj hpath'
        exact hdial.mp hpath
      · intro htext
        exact hdial.mpr (htext path rfl)

section

variable {u : Uri}

/-- What is sent in place of an empty path starts like one. -/
theorem startsPath_origin (h : ∀ c ∈ u.data.head?, Uri.startsPath c = true) :
    ∀ c ∈ (origin u).head?, Uri.startsPath c = true := by
  rw [origin, Uri.pathAndQuery_getD]
  split_ifs
  · intro c hc
    cases hc
    rfl
  · exact h

theorem endsAuthority_of_startsPath {c : Char} (h : Uri.startsPath c = true) : endsAuthority c = true := by
  rw [endsAuthority]
  exact (Bool.or_eq_true _ _).mpr (.inl h)

theorem originTarget_of_startsPath (h : ∀ c ∈ u.data.head?, Uri.startsPath c = true) :
    ∃ t, u.originTarget = some t := by
  unfold Uri.originTarget
  cases hdata : u.data with
  | nil => exact ⟨_, rfl⟩
  | cons c rest =>
      have hc := h c (by rw [hdata]; rfl)
      simp only [Uri.startsPath, Bool.or_eq_true, decide_eq_true_eq] at hc
      rcases hc with rfl | rfl
      · exact ⟨_, rfl⟩
      · exact ⟨_, rfl⟩

/-- `downgrade_to_h1` keeps the path, or makes one out of what it has read as a whole URI. -/
theorem origin_downgraded_or (u : Uri) :
    origin (downgraded u) = origin u ∨ ∀ c ∈ (origin (downgraded u)).head?, Uri.startsPath c = true := by
  rw [downgraded]
  cases hparse : Uri.parse (origin u) with
  | none => exact .inl rfl
  | some u' =>
      by_cases hstar : origin u = ['*']
      · obtain ⟨star, hread, -, hdata⟩ := Uri.parse_star
        rw [hstar, hread] at hparse
        obtain rfl := Option.some.inj hparse
        exact .inl ((origin_of_star hdata).trans hstar.symm)
      · exact .inr (startsPath_origin (Uri.startsPath_of_parse hparse hstar))

/-- A path that starts otherwise is taken for a part of the authority. -/
theorem authority_ne_of_not_startsPath {c : Char} {rest : Text} (h : origin u = c :: rest)
    (hc : Uri.startsPath c = false)
    (hparse : Uri.parse (Uri.httpScheme ++ (target.authority ++ origin u)) = some uri) :
    uri.authority ≠ some target.authority := by
  have hplain : ∀ c ∈ target.authority, (!endsAuthority c) = true := by
    intro c hc
    rw [(namesTarget target).plain c hc]
    rfl
  have hhash : c ≠ '#' := by
    rintro rfl
    have hvalid := origin_valid u
    rw [h] at hvalid
    simp [parsePathAndQuery] at hvalid
  have hends : (!endsAuthority c) = true := by simpa [endsAuthority, hhash, Uri.startsPath] using hc
  rw [(Uri.authority_of_parse_http hparse).2, List.takeWhile_append_of_pos hplain, h]
  simp [hends]

theorem pathAndQuery_of_parse_http {rest : Text} (h : Uri.parse (Uri.httpScheme ++ rest) = some uri)
    (hdata : uri.data = origin u) : uri.pathAndQuery = some (origin u) := by
  rw [Uri.pathAndQuery, (Uri.authority_of_parse_http h).1, hdata]
  simp [origin_ne_nil]

end

variable (target sni) in
/-- The URI of the pool, for a request with a path. -/
theorem poolUri_of_startsPath (h : ∀ c ∈ req.uri.data.head?, Uri.startsPath c = true) :
    poolUri target (downgradeToH1 sni req) =
        Uri.parse (Uri.httpScheme ++ (target.authority ++ origin req.uri)) ∧
      ∀ c ∈ (origin req.uri).head?, endsAuthority c = true := by
  obtain ⟨t, ht⟩ := originTarget_of_startsPath h
  refine ⟨?_, fun c hc => endsAuthority_of_startsPath (startsPath_origin h c hc)⟩
  rw [poolUri_downgradeToH1, origin_downgraded ht]

/-- Only a request with a path reaches its target. -/
theorem startsPath_of_goesTo (h : GoesTo tcp target sni req uri) :
    ∀ c ∈ req.uri.data.head?, Uri.startsPath c = true := by
  intro c hc
  by_contra hstart
  have hhead : c ∈ (origin req.uri).head? := by
    rw [origin, Uri.pathAndQuery_getD, if_neg]
    · exact hc
    · intro hnil
      simp [hnil] at hc
  obtain ⟨rest, horigin⟩ := List.head?_eq_some_iff.mp hhead
  have hread := h.parses
  rw [poolUri_downgradeToH1] at hread
  rcases origin_downgraded_or req.uri with hkept | hpath
  · rw [hkept] at hread
    exact authority_ne_of_not_startsPath horigin (Bool.eq_false_iff.mpr hstart) hread h.authority
  · -- the request is sent with the path that was made, and not with its own
    have hends := fun c hc => endsAuthority_of_startsPath (hpath c hc)
    have hdata := parse_target (t := target) hends
    rw [hread, Option.map_some] at hdata
    split_ifs at hdata
    have hsame := h.pathAndQuery
    rw [pathAndQuery_of_parse_http hread (Option.some.inj hdata)] at hsame
    rw [Option.some.inj hsame] at hpath
    exact hstart (hpath c hhead)

/-- **When a request reaches its target.** -/
theorem reaches_target_iff (tcp : TcpConnector) (target : UpstreamTarget) (sni : Text) (req : HttpRequest) :
    ReachesTarget tcp target sni req ↔ Reachable target req.uri := by
  unfold Reachable
  by_cases hstart : ∀ c ∈ req.uri.data.head?, Uri.startsPath c = true
  · obtain ⟨hpool, hends⟩ := poolUri_of_startsPath target sni hstart
    have hparse := parse_target (t := target) hends
    constructor
    · rintro ⟨uri, h⟩
      have hread := h.parses
      rw [hpool] at hread
      rw [hread, Option.map_some] at hparse
      split_ifs at hparse with hbad
      rw [not_or, Nat.not_lt] at hbad
      have hscheme := (Uri.authority_of_parse_http hread).1
      refine ⟨hstart, hbad.2, fun path hunix => ⟨?_, ?_⟩⟩
      · rintro rfl
        exact hbad.1 hunix
      · exact (dials_of_authority hscheme h.authority).mp h.dials path hunix
    · rintro ⟨-, hlen, hunix⟩
      have hne : target ≠ .unix [] := fun h => (hunix [] h).1 rfl
      rw [if_neg (not_or.mpr ⟨hne, Nat.not_lt.mpr hlen⟩), Option.map_eq_some_iff] at hparse
      obtain ⟨uri, hread, hdata⟩ := hparse
      obtain ⟨hscheme, hauth⟩ := Uri.authority_of_parse_http hread
      rw [(split_target hends).1] at hauth
      exact ⟨uri, {
        parses := hpool.trans hread
        sent := poolSend_of_poolUri (hpool.trans hread)
        authority := hauth
        pathAndQuery := pathAndQuery_of_parse_http hread hdata
        dials := (dials_of_authority hscheme hauth).mpr fun path hp => (hunix path hp).2 }⟩
  · refine iff_of_false ?_ fun h => hstart h.1
    rintro ⟨uri, h⟩
    exact hstart (startsPath_of_goesTo h)

end

/-- A request for a page. -/
def HttpRequest.page : HttpRequest where
  method := "GET".toList
  uri := .ofPath "/x?y".toList (by decide) (by decide)
  version := .http2
  headers := ⟨[]⟩
  protocol := none
  body := []

theorem reaches_target_socket :
    ReachesTarget httpConnector (.unix (utf8 "/run/s".toList)) "app".toList .page := by
  refine (reaches_target_iff _ _ _ _).mpr ⟨?_, by decide, fun path hpath => ?_⟩
  · intro c hc
    cases hc
    rfl
  · obtain rfl := UpstreamTarget.unix.inj hpath
    exact ⟨by decide, _, rfl⟩

/-- A request about the server as a whole. -/
def HttpRequest.optionsStar : HttpRequest where
  method := "OPTIONS".toList
  uri := .asterisk
  version := .http11
  headers := ⟨[]⟩
  protocol := none
  body := []

/-- A request in HTTP/2 with a `:path` that is not one. -/
def HttpRequest.atSign : HttpRequest where
  method := "GET".toList
  uri := .absolute "https".toList "app".toList "@10.0.0.9:9999/x".toList (by decide) (by decide)
  version := .http2
  headers := ⟨[]⟩
  protocol := none
  body := []

/-- Two requests that go over the pool.  One is dialled on port 80 of the target's host, the other at an
address that its client has chosen. -/
theorem star_or_at_sign_not_reached :
    (HttpRequest.optionsStar.view.needsOwnConnection = false ∧
      (poolUri (.tcp (.v4 127 0 0 1 8080)) (downgradeToH1 "app".toList .optionsStar)).bind httpConnector.dial =
        some ("127.0.0.1".toList, 80) ∧
      ¬ ReachesTarget httpConnector (.tcp (.v4 127 0 0 1 8080)) "app".toList .optionsStar) ∧
    HttpRequest.atSign.view.needsOwnConnection = false ∧
      (poolUri (.tcp (.v4 127 0 0 1 8080)) (downgradeToH1 "app".toList .atSign)).bind httpConnector.dial =
        some ("10.0.0.9".toList, 9999) ∧
      ¬ ReachesTarget httpConnector (.tcp (.v4 127 0 0 1 8080)) "app".toList .atSign := by
  have hwrong : ∀ {req : HttpRequest} {a : Text},
      (poolUri (.tcp (.v4 127 0 0 1 8080)) (downgradeToH1 "app".toList req)).bind Uri.authority = some a →
      a ≠ "127.0.0.1:8080".toList →
      ¬ ReachesTarget httpConnector (.tcp (.v4 127 0 0 1 8080)) "app".toList req := by
    rintro req a hauth hne ⟨uri, h⟩
    rw [h.parses, Option.bind_some, h.authority] at hauth
    exact hne (Option.some.inj hauth).symm
  refine ⟨⟨by decide, by decide, hwrong (a := "127.0.0.1:8080*".toList) (by decide) (by decide)⟩, by decide,
    by decide, hwrong (a := "127.0.0.1:8080@10.0.0.9:9999".toList) (by decide) (by decide)⟩

end Tuyau
