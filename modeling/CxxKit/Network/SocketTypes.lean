import Mathlib.Logic.Basic

/-!
Socket states and errors, and the table from transport statuses to errors.

Statuses are libuv's: zero or a negated errno, with the values of Linux.
-/

namespace CxxKit.Network

inductive SocketState where
  | kIdle
  | kConnecting
  | kConnected
  | kClosing
  | kClosed
  | kBound
  deriving DecidableEq, Repr

inductive SocketError where
  | kNone
  | kUnknown
  | kConnectionRefused
  | kConnectionReset
  | kTimedOut
  | kHostUnreachable
  | kNetworkUnreachable
  | kAddrNotAvailable
  | kBrokenPipe
  | kEof
  | kTlsHandshakeFailed
  | kTlsCertificateError
  | kTlsPeerClosed
  | kTlsProtocolError
  | kMessageTooLarge
  | kAddressInUse
  deriving DecidableEq, Repr

def uvEconnrefused : Int := -111
def uvEconnreset : Int := -104
def uvEtimedout : Int := -110
def uvEhostunreach : Int := -113
def uvEnetunreach : Int := -101
def uvEaddrnotavail : Int := -99
def uvEpipe : Int := -32
def uvEmsgsize : Int := -90
def uvEaddrinuse : Int := -98
def uvEinval : Int := -22
def uvEshutdown : Int := -108
def uvEof : Int := -4095

/-- `kBackendEof`, what a backend reports for the end of the stream. -/
def kBackendEof : Int := -4095

/-- `map_transport_error`. -/
def mapTransportError (status : Int) : SocketError :=
  if status = uvEconnrefused then .kConnectionRefused
  else if status = uvEconnreset then .kConnectionReset
  else if status = uvEtimedout then .kTimedOut
  else if status = uvEhostunreach then .kHostUnreachable
  else if status = uvEnetunreach then .kNetworkUnreachable
  else if status = uvEaddrnotavail then .kAddrNotAvailable
  else if status = uvEpipe then .kBrokenPipe
  else if status = uvEmsgsize then .kMessageTooLarge
  else if status = uvEaddrinuse then .kAddressInUse
  else .kUnknown

end CxxKit.Network
