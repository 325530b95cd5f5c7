import Tuyau.Config

/-! # The routing backend

A backend answers the token of a tunnel client with a grant: who the client is, how several
tunnels of it are balanced, and which hostnames it serves.  `StaticBackend` reads both from the
configuration; in dynamic mode the embedder supplies the backend, and nothing is known of its
grants. -/

namespace Tuyau

open AsciiText

/-- What a client is admitted as, and for which hostnames. -/
structure ClientGrant where
  clientName : Text
  balance : Balance
  hostnames : List (Text × TlsMode)
deriving DecidableEq

/-- The granted hostnames, as the grant spells them. -/
def ClientGrant.hosts (g : ClientGrant) : List Text := g.hostnames.map Prod.fst

/-- The backend of static mode. -/
structure StaticBackend where
  clients : List ClientEntry
  hostnames : List HostnameEntry

namespace StaticBackend

/-- The backend of a configuration. -/
def new (cfg : ServerConfig) : StaticBackend := ⟨cfg.clients, cfg.hostnames⟩

/-- The search through all clients; the last match wins. -/
def matchToken (token : Token) (clients : List ClientEntry) : Option ClientEntry :=
  clients.foldl (fun matched c => if token = c.token then some c else matched) none

/-- The grant of a token, if a client has it. -/
def admitClient (b : StaticBackend) (token : Token) : Option ClientGrant :=
  (matchToken token b.clients).map fun client =>
    { clientName := client.name
      balance := client.balance
      hostnames := (b.hostnames.filter fun h => h.client = client.name).map
        fun h => (h.host, h.tlsMode) }

theorem matchToken_concat (token : Token) (clients : List ClientEntry) (c : ClientEntry) :
    matchToken token (clients ++ [c]) =
      if token = c.token then some c else matchToken token clients := by
  simp [matchToken]

theorem matchToken_eq_some {token : Token} {clients : List ClientEntry} {c : ClientEntry}
    (h : matchToken token clients = some c) : c ∈ clients ∧ c.token = token := by
  induction clients using List.reverseRecOn with
  | nil => cases h
  | append_singleton clients c₀ ih =>
      rw [matchToken_concat] at h
      split_ifs at h with ht
      · obtain rfl := Option.some.inj h
        exact ⟨by simp, ht.symm⟩
      · exact ⟨List.mem_append_left _ (ih h).1, (ih h).2⟩

/-- A static grant is that of a client with the presented token, and names exactly the
hostnames configured for it, each with its configured mode. -/
theorem admitClient_eq_some {b : StaticBackend} {token : Token} {g : ClientGrant}
    (h : b.admitClient token = some g) :
    ∃ client ∈ b.clients, client.token = token ∧ g.clientName = client.name ∧
      g.balance = client.balance ∧
      ∀ p, p ∈ g.hostnames ↔
        ∃ e ∈ b.hostnames, e.client = client.name ∧ e.host = p.1 ∧ e.tlsMode = p.2 := by
  obtain ⟨client, hc, rfl⟩ := Option.map_eq_some_iff.mp h
  obtain ⟨hmem, htoken⟩ := matchToken_eq_some hc
  refine ⟨client, hmem, htoken, rfl, rfl, ?_⟩
  rintro ⟨host, mode⟩
  simp only [List.mem_map, List.mem_filter, decide_eq_true_eq, Prod.mk.injEq]
  constructor
  · rintro ⟨e, ⟨he, hcl⟩, hhost, hmode⟩
    exact ⟨e, he, hcl, hhost, hmode⟩
  · rintro ⟨e, he, hcl, hhost, hmode⟩
    exact ⟨e, ⟨he, hcl⟩, hhost, hmode⟩

end StaticBackend

end Tuyau
