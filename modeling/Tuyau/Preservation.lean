import Tuyau.HttpProxy

/-! # What the proxy keeps of a request

A request that is not a CONNECT should reach the backend as it came: with its method, its body, its path
and query in origin form and all headers but those the proxy is there to set.  It takes one of three
ways, which rebuild it differently: `h1_roundtrip` rewrites it in place, `pooled_roundtrip` in addition
wraps the path in an absolute URI that names the target, and `h1_upgrade` copies it into a new one.

The main result is `request_preserved_iff`, which says for which requests they do.  `h1_upgrade` sends no
body and leaves the target in the form it came in; a URI with a query but no path, `*` and very long URIs
do not survive some of the rewriting. -/

namespace Tuyau

open AsciiText Http

/-! ### The authority of a target -/

/-- The authority of a target is accepted as one, and nothing in it ends it early. -/
structure NamesTarget (a : Text) : Prop where
  isAuthority : isAuthority a = true
  plain : ∀ c ∈ a, endsAuthority c = false

/-- The characters of addresses and ports. -/
def addressChars : List Char := ':' :: '.' :: IpAddr.hexDigits

theorem isAuthorityChar_of_mem {c : Char} (h : c ∈ addressChars) : c = ':' ∨ isAuthorityChar c = true := by
  have hall : ('.' :: IpAddr.hexDigits).all isAuthorityChar = true := by decide
  rcases List.mem_cons.mp h with h | h
  · exact .inl h
  · exact .inr (List.all_eq_true.mp hall c h)

theorem not_endsAuthority {c : Char} (h : c ∈ addressChars) : endsAuthority c = false := by
  have hall : addressChars.all (fun c => !endsAuthority c) = true := by decide
  have hc := List.all_eq_true.mp hall c h
  rwa [Bool.not_eq_true'] at hc

theorem mem_ip {ip : IpAddr} {c : Char} (h : c ∈ ip.toText) : c ∈ addressChars := by
  rw [addressChars, List.mem_cons, List.mem_cons]
  exact IpAddr.mem_toText h

theorem mem_port {port : ℕ} {c : Char} (h : c ∈ ':' :: IpAddr.decimal port) : c ∈ addressChars := by
  rcases List.mem_cons.mp h with rfl | h
  · exact List.mem_cons_self
  · exact List.mem_cons_of_mem _ (List.mem_cons_of_mem _ (IpAddr.mem_decimal h))

theorem isAuthorityChar_decimal {n : ℕ} {c : Char} (h : c ∈ IpAddr.decimal n) : isAuthorityChar c = true :=
  (isAuthorityChar_of_mem (mem_port (List.mem_cons_of_mem _ h))).resolve_left fun hc =>
    IpAddr.colon_not_mem_toDigits (by decide) (by decide) (hc ▸ h)

/-- What is in the brackets of an IPv6 address. -/
theorem scan_hostText (segments : Vector UInt16 8) (port : UInt16) (scopeId : UInt32) :
    ∃ n percent, (SocketAddr.v6 segments port scopeId).hostText.foldlM AuthorityScan.step
      ⟨0, true, false, false, false⟩ = some ⟨n, true, false, percent, false⟩ := by
  have hplain : ∀ x ∈ (IpAddr.v6 segments).toText, x = ':' ∨ isAuthorityChar x = true :=
    fun x hx => isAuthorityChar_of_mem (mem_ip hx)
  have hcount := IpAddr.count_toText segments
  rw [SocketAddr.hostText]
  split_ifs
  · rw [List.append_nil]
    exact ⟨_, _, AuthorityScan.foldlM_plain hplain rfl (by dsimp only; omega)⟩
  · exact ⟨_, _, AuthorityScan.foldlM_zone hplain hcount fun x hx => isAuthorityChar_decimal hx⟩

theorem mem_hostText {addr : SocketAddr} {c : Char} (h : c ∈ addr.hostText) :
    c = '%' ∨ c ∈ addressChars := by
  cases addr with
  | v4 a b c d port => exact .inr (@mem_ip (.v4 a b c d) _ h)
  | v6 segments port scopeId =>
      rcases List.mem_append.mp h with h | h
      · exact .inr (mem_ip h)
      · split_ifs at h
        · exact absurd h List.not_mem_nil
        · rcases List.mem_cons.mp h with h | h
          · exact .inl h
          · exact .inr (mem_port (List.mem_cons_of_mem _ h))

theorem namesTarget_tcp (addr : SocketAddr) : NamesTarget addr.toText := by
  have hcolon : ∀ port : UInt16, (':' :: IpAddr.decimal port.toNat).count ':' = 1 := by
    intro port
    rw [List.count_cons_self, IpAddr.count_decimal]
  have hhost : ∀ x ∈ addr.hostText, endsAuthority x = false := by
    intro x hx
    rcases mem_hostText hx with rfl | hx
    · decide
    · exact not_endsAuthority hx
  cases addr with
  | v4 a b c d port =>
      refine ⟨isAuthority_of_plain ?_ ?_, ?_⟩
      · intro x hx
        rcases List.mem_append.mp hx with hx | hx
        · exact isAuthorityChar_of_mem (@mem_ip (.v4 a b c d) _ hx)
        · exact isAuthorityChar_of_mem (mem_port hx)
      · change (IpAddr.dotted a b c d ++ ':' :: IpAddr.decimal port.toNat).count ':' ≤ 1
        rw [List.count_append, IpAddr.count_dotted, hcolon]
      · intro x hx
        rcases List.mem_append.mp hx with hx | hx
        · exact hhost x hx
        · exact not_endsAuthority (mem_port hx)
  | v6 segments port scopeId =>
      obtain ⟨n, percent, hscan⟩ := scan_hostText segments port scopeId
      refine ⟨isAuthority_of_bracket hscan (fun x hx => isAuthorityChar_of_mem (mem_port hx))
        (hcolon port).le, ?_⟩
      intro x hx
      rcases List.mem_append.mp hx with hx | hx
      · rcases List.mem_cons.mp hx with rfl | hx
        · decide
        · exact hhost x hx
      · rcases List.mem_cons.mp hx with rfl | hx
        · decide
        · exact not_endsAuthority (mem_port hx)

theorem mem_hexEncode {bs : List UInt8} {c : Char} (h : c ∈ hexEncode bs) : c ∈ IpAddr.hexDigits := by
  have hdigit : ∀ d < 16, Nat.digitChar d ∈ IpAddr.hexDigits := by decide
  obtain ⟨b, -, h⟩ := List.mem_flatMap.mp h
  have hb := b.toNat_lt
  rw [List.mem_cons, List.mem_singleton] at h
  rcases h with rfl | rfl
  · exact hdigit _ (by omega)
  · exact hdigit _ (by omega)

theorem namesTarget_unix (path : PathBuf) : NamesTarget (hexEncode path) := by
  have hmem : ∀ c ∈ hexEncode path, c ∈ addressChars := fun c hc => by simp [addressChars, mem_hexEncode hc]
  have hno : ':' ∉ hexEncode path := fun h => absurd (mem_hexEncode h) (by decide)
  refine ⟨isAuthority_of_plain (fun c hc => isAuthorityChar_of_mem (hmem c hc)) ?_,
    fun c hc => not_endsAuthority (hmem c hc)⟩
  rw [List.count_eq_zero.mpr hno]
  exact Nat.zero_le 1

theorem namesTarget (target : UpstreamTarget) : NamesTarget target.authority := by
  cases target with
  | tcp addr => exact namesTarget_tcp addr
  | unix path => exact namesTarget_unix path

/-- Only the empty path has an empty authority. -/
theorem authority_eq_nil_iff {target : UpstreamTarget} : target.authority = [] ↔ target = .unix [] := by
  cases target with
  | tcp addr => cases addr <;> simp [UpstreamTarget.authority, SocketAddr.toText]
  | unix path =>
      cases path with
      | nil => simp [UpstreamTarget.authority, hexEncode]
      | cons b path => simp [UpstreamTarget.authority, hexEncode]

/-! ### The target of a request -/

/-- The path and query that a request is sent with. -/
def origin (u : Uri) : Text := u.pathAndQuery.getD ['/']

/-- A path that can be read back: it is not a query alone and not too long. -/
def Readable (u : Uri) : Prop := u.data.head? ≠ some '?' ∧ byteLen u.data ≤ maxUriLen

section

variable {u : Uri} {target : Text}

theorem origin_ne_nil (u : Uri) : origin u ≠ [] := by
  rw [origin, Uri.pathAndQuery_getD]
  split_ifs with hd
  · simp
  · exact hd

theorem origin_valid (u : Uri) : parsePathAndQuery (origin u) = some (origin u) := by
  rw [origin, Uri.pathAndQuery_getD]
  split_ifs
  · decide
  · exact u.valid

/-- Two URIs with the same path and query have the same origin form. -/
theorem originTarget_of_data {u' : Uri} (h : u'.data = origin u) :
    u'.originTarget = u.originTarget := by
  rw [origin, Uri.pathAndQuery_getD] at h
  split_ifs at h with hd
  · rw [Uri.originTarget, Uri.originTarget, h, hd]
    rfl
  · rw [Uri.originTarget, Uri.originTarget, h]

theorem origin_of_data {u' : Uri} (h : u'.data = origin u) : origin u' = origin u := by
  rw [origin, Uri.pathAndQuery_getD, if_neg (by rw [h]; exact origin_ne_nil u), h]

/-- What the origin form of a URI starts with. -/
theorem origin_cases (ht : u.originTarget = some target) :
    (origin u).head? = some '/' ∧ u.data.head? ≠ some '?' ∨ u.data.head? = some '?' ∨ u.data = ['*'] := by
  rw [origin, Uri.pathAndQuery_getD]
  rw [Uri.originTarget] at ht
  split at ht
  · next hd => exact .inl (by simp [hd])
  · next hd => exact .inl (by simp [hd])
  · next hd => exact .inr (.inl (by simp [hd]))
  · next hd => exact .inr (.inr hd)
  · simp at ht

theorem origin_of_star (h : u.data = ['*']) : origin u = ['*'] := by
  rw [origin, Uri.pathAndQuery_getD, h, if_neg (by simp)]

theorem byteLen_origin (h : byteLen u.data ≤ maxUriLen) : byteLen (origin u) ≤ maxUriLen := by
  rw [origin, Uri.pathAndQuery_getD]
  split_ifs
  · decide
  · exact h

/-- Reading back the path of a request. -/
theorem parse_origin_of_readable (ht : u.originTarget = some target) (h : Readable u) :
    ∃ u', Uri.parse (origin u) = some u' ∧ u'.isPathOnly = true ∧ u'.data = origin u := by
  rcases origin_cases ht with ⟨hslash, -⟩ | hquery | hstar
  · exact Uri.parse_path hslash (origin_valid u) (byteLen_origin h.2)
  · exact absurd hquery h.1
  · rw [origin_of_star hstar]
    exact Uri.parse_star

theorem parse_origin_of_not_readable (h : ¬ Readable u) : Uri.parse (origin u) = none := by
  have hd : u.data ≠ [] := by
    intro hd
    exact h ⟨by simp [hd], by rw [hd]; decide⟩
  rw [origin, Uri.pathAndQuery_getD, if_neg hd]
  by_cases hquery : u.data.head? = some '?'
  · obtain ⟨t, ht⟩ := List.head?_eq_some_iff.mp hquery
    rw [ht]
    exact Uri.parse_query t
  · exact if_pos (Nat.not_le.mp fun hlen => h ⟨hquery, hlen⟩)

/-- The URI of a request after `downgrade_to_h1`. -/
def downgraded (u : Uri) : Uri := (Uri.parse (origin u)).getD u

/-- It is written in origin form exactly when it came so or its path can be read back. -/
theorem toText_downgraded (ht : u.originTarget = some target) :
    (downgraded u).toText = target ↔ u.isPathOnly = true ∨ Readable u := by
  by_cases h : Readable u
  · obtain ⟨u', hparse, honly, hdata⟩ := parse_origin_of_readable ht h
    have ht' : u'.originTarget = some target := by rw [originTarget_of_data hdata, ht]
    rw [downgraded, hparse, Option.getD_some]
    exact iff_of_true (Uri.toText_of_isPathOnly honly ht') (.inr h)
  · rw [downgraded, parse_origin_of_not_readable h, Option.getD_none]
    cases honly : u.isPathOnly with
    | true => exact iff_of_true (Uri.toText_of_isPathOnly honly ht) (.inl rfl)
    | false => exact iff_of_false (Uri.toText_ne honly ht) (by simp [h])

/-- Its path and query stay the same. -/
theorem origin_downgraded (ht : u.originTarget = some target) : origin (downgraded u) = origin u := by
  by_cases h : Readable u
  · obtain ⟨u', hparse, -, hdata⟩ := parse_origin_of_readable ht h
    rw [downgraded, hparse, Option.getD_some, origin_of_data hdata]
  · rw [downgraded, parse_origin_of_not_readable h, Option.getD_none]

/-- The path or query behind the authority of a target ends it. -/
theorem split_target {t : UpstreamTarget} (hend : ∀ c ∈ (origin u).head?, endsAuthority c = true) :
    (t.authority ++ origin u).takeWhile (fun c => !endsAuthority c) = t.authority ∧
      (t.authority ++ origin u).dropWhile (fun c => !endsAuthority c) = origin u := by
  have hplain : ∀ c ∈ t.authority, (!endsAuthority c) = true := by
    intro c hc
    rw [(namesTarget t).plain c hc]
    rfl
  obtain ⟨c, rest, horigin⟩ := List.exists_cons_of_ne_nil (origin_ne_nil u)
  have hc : endsAuthority c = true := hend c (by rw [horigin]; rfl)
  constructor
  · rw [List.takeWhile_append_of_pos hplain, horigin, List.takeWhile_cons_of_neg (by simp [hc]),
      List.append_nil]
  · rw [List.dropWhile_append_of_pos hplain, horigin, List.dropWhile_cons_of_neg (by simp [hc])]

/-- The URI that names a target for the pool, with a path or a query behind the authority. -/
theorem parse_target {t : UpstreamTarget} (hend : ∀ c ∈ (origin u).head?, endsAuthority c = true) :
    (Uri.parse (Uri.httpScheme ++ (t.authority ++ origin u))).map Uri.data =
      if t = .unix [] ∨ maxUriLen < byteLen (Uri.httpScheme ++ (t.authority ++ origin u)) then none
      else some (origin u) := by
  obtain ⟨htake, hdrop⟩ := split_target (t := t) hend
  rw [Uri.parse_http, htake, hdrop, origin_valid]
  simp only [ne_eq, authority_eq_nil_iff, (namesTarget t).isAuthority, and_true]
  split_ifs <;> tauto

/-- The pool takes `*` for a part of the authority. -/
theorem plain_target_star {t : UpstreamTarget} (hstar : origin u = ['*']) :
    ∀ c ∈ t.authority ++ origin u, (!endsAuthority c) = true := by
  intro c hc
  rw [hstar] at hc
  rcases List.mem_append.mp hc with hc | hc
  · rw [(namesTarget t).plain c hc]
    rfl
  · rw [List.mem_singleton.mp hc]
    decide

theorem parse_target_star {t : UpstreamTarget} (hstar : origin u = ['*']) :
    ∀ d ∈ (Uri.parse (Uri.httpScheme ++ (t.authority ++ origin u))).map Uri.data, d = [] := by
  intro d hd
  rw [Uri.parse_http, List.dropWhile_eq_nil_iff.mpr (plain_target_star hstar)] at hd
  split_ifs at hd
  · simp at hd
  · simpa [parsePathAndQuery, isPathAndQuery, eq_comm] using hd
  · simp at hd

/-- Any other path or query ends the authority before it. -/
theorem head_origin_of_ne_star (ht : u.originTarget = some target) (h : u.data ≠ ['*']) :
    ∀ c ∈ (origin u).head?, endsAuthority c = true := by
  intro c hc
  rcases origin_cases ht with ⟨hslash, -⟩ | hquery | hstar
  · rw [hslash] at hc
    rw [← Option.some.inj hc]
    decide
  · have hd : u.data ≠ [] := by
      intro hd
      simp [hd] at hquery
    rw [origin, Uri.pathAndQuery_getD, if_neg hd, hquery] at hc
    rw [← Option.some.inj hc]
    decide
  · exact absurd hstar h

/-- The request on a pooled connection, in terms of the path and query it came with. -/
theorem requestBy_pooled {sni : Text} {req : HttpRequest} {t : UpstreamTarget}
    (ht : req.uri.originTarget = some target) :
    requestBy (.localTo t) sni req .pooled =
      match Uri.parse (Uri.httpScheme ++ (t.authority ++ origin req.uri)) with
      | some uri => .ok { downgradeToH1 sni req with uri := uri.intoOriginForm }
      | none => .error .expectPanic := by
  rw [← origin_downgraded ht]
  rfl

end

/-! ### Each way by itself -/

/-- What the backend gets is the request: the same method and body, the path and query in origin form
and all headers but those that the proxy sets. -/
def Preserved (req : HttpRequest) (result : Except ProxyFailure HttpRequest) : Prop :=
  ∃ sent, result = .ok sent ∧ sent.method = req.method ∧ sent.body = req.body ∧
    req.uri.originTarget = some sent.uri.toText ∧
    ∀ name, name ∉ [hostHeader, xRealIp, xForwardedFor, cfConnectingIp] →
      sent.headers.getAll name = req.headers.getAll name

/-- The requests that each way preserves: the path and query have an origin form; an upgrade has no body
and comes in origin form; over a tunnel it comes in origin form or can be read back; and for a local
upstream it is not `*`, and the URI that names the target is not too long. -/
def Preservable (req : HttpRequest) (route : Route) : Prop :=
  req.uri.originTarget.isSome = true ∧
    if req.view.hasUpgrade then req.body = [] ∧ req.uri.isPathOnly = true
    else
      match route with
      | .tunnel _ => req.uri.isPathOnly = true ∨ Readable req.uri
      | .localTo target =>
          req.uri.data ≠ ['*'] ∧ target ≠ .unix [] ∧
            byteLen (Uri.httpScheme ++ (target.authority ++ origin req.uri)) ≤ maxUriLen

section

variable {sni : Text} {req : HttpRequest} {headers : HeaderMap}
  (hkeep : ∀ name, name ∉ [xRealIp, xForwardedFor, cfConnectingIp] →
    headers.getAll name = req.headers.getAll name)

include hkeep

/-- On no way but that of a WebSocket in HTTP/2 are other headers lost. -/
theorem preserved_iff {route : Route} {e : Exchange} (he : e ≠ .wsBridge) :
    Preserved req (requestBy route sni { req with headers } e) ↔
      ∃ sent, requestBy route sni { req with headers } e = .ok sent ∧ sent.method = req.method ∧
        sent.body = req.body ∧ req.uri.originTarget = some sent.uri.toText := by
  constructor
  · rintro ⟨sent, hsent, hmethod, hbody, htarget, -⟩
    exact ⟨sent, hsent, hmethod, hbody, htarget⟩
  · rintro ⟨sent, hsent, hmethod, hbody, htarget⟩
    refine ⟨sent, hsent, hmethod, hbody, htarget, fun name hname => ?_⟩
    rw [List.mem_cons, not_or] at hname
    rw [getAll_requestBy he hsent hname.1]
    exact hkeep name hname.2

theorem preserved_h1Upgrade (route : Route) :
    Preserved req (requestBy route sni { req with headers } .h1Upgrade) ↔
      req.uri.originTarget.isSome = true ∧ req.body = [] ∧ req.uri.isPathOnly = true := by
  rw [preserved_iff hkeep (by simp)]
  constructor
  · rintro ⟨sent, hsent, -, hbody, htarget⟩
    rw [← Except.ok.inj hsent] at hbody htarget
    refine ⟨by rw [htarget]; rfl, hbody.symm, ?_⟩
    by_contra honly
    rw [Bool.not_eq_true] at honly
    exact Uri.toText_ne honly htarget rfl
  · rintro ⟨hsome, hbody, honly⟩
    obtain ⟨target, htarget⟩ := Option.isSome_iff_exists.mp hsome
    refine ⟨_, rfl, rfl, hbody.symm, ?_⟩
    rw [htarget]
    exact congrArg some (Uri.toText_of_isPathOnly honly htarget).symm

theorem preserved_h1Roundtrip (route : Route) :
    Preserved req (requestBy route sni { req with headers } .h1Roundtrip) ↔
      req.uri.originTarget.isSome = true ∧ (req.uri.isPathOnly = true ∨ Readable req.uri) := by
  rw [preserved_iff hkeep (by simp)]
  constructor
  · rintro ⟨sent, hsent, -, -, htarget⟩
    rw [← Except.ok.inj hsent] at htarget
    exact ⟨by rw [htarget]; rfl, (toText_downgraded htarget).mp rfl⟩
  · rintro ⟨hsome, hway⟩
    obtain ⟨target, htarget⟩ := Option.isSome_iff_exists.mp hsome
    refine ⟨_, rfl, rfl, rfl, ?_⟩
    rw [htarget]
    exact congrArg some ((toText_downgraded htarget).mpr hway).symm

theorem preserved_pooled (t : UpstreamTarget) :
    Preserved req (requestBy (.localTo t) sni { req with headers } .pooled) ↔
      req.uri.originTarget.isSome = true ∧ req.uri.data ≠ ['*'] ∧ t ≠ .unix [] ∧
        byteLen (Uri.httpScheme ++ (t.authority ++ origin req.uri)) ≤ maxUriLen := by
  rw [preserved_iff hkeep (by simp)]
  cases htarget : req.uri.originTarget with
  | none => simp
  | some target =>
      rw [@requestBy_pooled target sni { req with headers } t htarget]
      dsimp only
      by_cases hstar : req.uri.data = ['*']
      · -- what is sent is `/`
        have hdata := parse_target_star (t := t) (origin_of_star hstar)
        refine iff_of_false ?_ (by simp [hstar])
        rintro ⟨sent, hsent, -, -, hsame⟩
        split at hsent
        · next uri hparse =>
            rw [← Except.ok.inj hsent, ← htarget, Uri.originTarget, hstar] at hsame
            rw [hparse] at hdata
            have hnil : uri.data = [] := hdata _ rfl
            simp [Uri.intoOriginForm, hnil] at hsame
            exact absurd hsame (by decide)
        · simp at hsent
      · have hparse := parse_target (t := t) (head_origin_of_ne_star htarget hstar)
        constructor
        · rintro ⟨sent, hsent, -⟩
          split at hsent
          · next uri huri =>
              rw [huri, Option.map_some] at hparse
              split_ifs at hparse with hcond
              rw [not_or, Nat.not_lt] at hcond
              exact ⟨rfl, hstar, hcond⟩
          · simp at hsent
        · rintro ⟨-, -, hunix, hlen⟩
          rw [if_neg (not_or.mpr ⟨hunix, Nat.not_lt.mpr hlen⟩), Option.map_eq_some_iff] at hparse
          obtain ⟨uri, huri, hdata⟩ := hparse
          rw [huri]
          have hsame : uri.originTarget = some target := by rw [originTarget_of_data hdata, htarget]
          exact ⟨_, rfl, rfl, rfl, congrArg some (Uri.toText_intoOriginForm hsame).symm⟩

end

/-! ### Any way -/

/-- A request that is not a CONNECT is no WebSocket in HTTP/2 and is not refused. -/
theorem exchange_of_not_connect {r : Request} (h : r.isConnect = false) (route : Route) :
    r.exchange route =
      if r.hasUpgrade then .h1Upgrade
      else match route with
        | .tunnel _ => .h1Roundtrip
        | .localTo _ => .pooled := by
  have hws : r.isWebsocketConnect = false := by rw [Request.isWebsocketConnect, h, Bool.false_and]
  cases hup : r.hasUpgrade <;> cases route <;>
    simp [Request.exchange, Request.ownExchange, Request.needsOwnConnection, hws, hup, h]

/-- **When the proxy preserves a request.** -/
theorem request_preserved_iff (parseIp : Text → Option IpAddr) (route : Route) (sni : Text)
    (peer : SocketAddr) (client : Client) {req : HttpRequest} (hconnect : req.isConnect = false) :
    Preserved req (proxyRequest parseIp route sni peer client req) ↔ Preservable req route := by
  obtain ⟨headers, hset, -, -, hkeep⟩ := @exists_setClientAddress parseIp req.headers peer client
  -- the headers that the proxy sets do not change the way that is taken
  have hview : HttpRequest.view { req with headers } = req.view := by
    have hupgrade := hkeep upgradeHeader (by decide)
    simp only [HttpRequest.view, HeaderMap.containsKey_eq, hupgrade, HttpRequest.isConnect]
  rw [proxyRequest, hset]
  dsimp only
  rw [requestOverRoute_eq, hview, exchange_of_not_connect hconnect]
  unfold Preservable
  split_ifs with hup
  · exact preserved_h1Upgrade hkeep route
  · cases route with
    | tunnel entry => exact preserved_h1Roundtrip hkeep _
    | localTo t => exact preserved_pooled hkeep t

/-- An upload, as an absolute URI, that offers an upgrade. -/
def HttpRequest.upload : HttpRequest where
  method := "POST".toList
  uri := .absolute "http".toList "a".toList "/x".toList (by decide) (by decide)
  version := .http11
  headers := ⟨[(upgradeHeader, utf8 "h2c".toList)]⟩
  protocol := none
  body := [1, 2, 3]

/-- Without the offer a local upstream gets the upload as it is. -/
theorem request_preserved_upload :
    Preserved { HttpRequest.upload with headers := ⟨[]⟩ }
      (proxyRequest (fun _ => none) (.localTo (.tcp (.v4 127 0 0 1 80))) "a".toList
        (.v4 192 0 2 7 50000) .direct { HttpRequest.upload with headers := ⟨[]⟩ }) := by
  refine (request_preserved_iff _ _ _ _ _ (by decide)).mpr ⟨rfl, ?_⟩
  exact ⟨by decide, by decide, by decide⟩

/-- With it the body is lost. -/
theorem upload_not_preserved :
    ¬ Preserved .upload (proxyRequest (fun _ => none) (.localTo (.tcp (.v4 127 0 0 1 80))) "a".toList
      (.v4 192 0 2 7 50000) .direct .upload) := by
  rintro ⟨sent, hsent, -, hbody, -⟩
  have hbody' : sent.body = [] := by
    rw [← Except.ok.inj hsent]
    rfl
  rw [hbody] at hbody'
  exact absurd hbody' (by decide)

end Tuyau
