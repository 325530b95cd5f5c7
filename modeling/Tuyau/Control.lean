import Tuyau.AssocMap
import Tuyau.Net

/-! # The registry of connected tunnels

`Control` lists the tunnels that are up, by the stable id of their connection, and sends an event
when one comes up or goes down. -/

namespace Tuyau

open AsciiText

/-- Metadata of a connected tunnel. -/
structure TunnelInfo where
  clientName : Text
  peer : SocketAddr
  hostnames : List Text
deriving DecidableEq

inductive ControlEvent where
  | tunnelUp (clientName : Text) (peer : SocketAddr) (hostnames : List Text)
  | tunnelDown (clientName : Text) (peer : SocketAddr)
deriving DecidableEq

/-- The registry, and the events sent so far, oldest first. -/
structure Control where
  tunnels : AssocMap ℕ TunnelInfo
  events : List ControlEvent

namespace Control

def new : Control := ⟨∅, []⟩

/-- Record a tunnel and announce it. -/
def register (ctl : Control) (stableId : ℕ) (info : TunnelInfo) : Control where
  tunnels := AList.insert stableId info ctl.tunnels
  events := ctl.events ++ [.tunnelUp info.clientName info.peer info.hostnames]

/-- Drop a tunnel, announcing it if it was recorded. -/
def unregister (ctl : Control) (stableId : ℕ) : Control where
  tunnels := AList.erase stableId ctl.tunnels
  events :=
    match ctl.tunnels.lookup stableId with
    | some info => ctl.events ++ [.tunnelDown info.clientName info.peer]
    | none => ctl.events

theorem lookup_register (ctl : Control) (stableId i : ℕ) (info : TunnelInfo) :
    (ctl.register stableId info).tunnels.lookup i =
      if i = stableId then some info else ctl.tunnels.lookup i :=
  AssocMap.lookup_insert_eq_ite ..

theorem lookup_unregister (ctl : Control) (stableId i : ℕ) :
    (ctl.unregister stableId).tunnels.lookup i =
      if i = stableId then none else ctl.tunnels.lookup i := by
  split_ifs with h
  · subst h
    exact AList.lookup_erase ..
  · exact AList.lookup_erase_ne h

end Control

end Tuyau
