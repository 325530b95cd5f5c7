import Mathlib.Data.UInt
import Tuyau.AsciiText

/-! # Frames of the tunnel protocol

The messages the server and a tunnel client exchange: `Hello` and `HelloResponse` open a
tunnel, and a `DataStreamHeader` is the first frame of every data stream the server opens on
it. -/

namespace Tuyau

open AsciiText

/-- The 32 bytes that identify a client. -/
abbrev Token := Vector UInt8 32

/-- How the TLS of a hostname is handled. -/
inductive TlsMode where
  | terminated
  | tlsOffload
  | passthrough
deriving DecidableEq, Repr

instance : Inhabited TlsMode := ⟨.terminated⟩

/-- The modes in which the server completes the TLS handshake itself. -/
def TlsMode.terminates : TlsMode → Bool
  | .terminated => true
  | .tlsOffload => true
  | .passthrough => false

theorem TlsMode.terminates_iff {m : TlsMode} :
    m.terminates = true ↔ m = .terminated ∨ m = .tlsOffload := by
  cases m <;> decide

theorem TlsMode.not_terminates {m : TlsMode} : ¬ m.terminates = true ↔ m = .passthrough := by
  cases m <;> decide

/-- First frame of a tunnel client. -/
structure Hello where
  token : Token
  clientName : Text
deriving DecidableEq

/-- The server's answer to a `Hello`. -/
inductive HelloResponse where
  | welcome
  | reject (reason : Text)
deriving DecidableEq

/-- First frame of a data stream: the hostname it serves, the public peer and the mode. -/
structure DataStreamHeader where
  hostname : Text
  peerAddr : Text
  mode : TlsMode
deriving DecidableEq

end Tuyau
