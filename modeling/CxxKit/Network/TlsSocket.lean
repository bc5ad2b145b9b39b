import CxxKit.Lib.Reentrant
import CxxKit.Network.SocketTypes

/-!
`TlsSocket` over mbedTLS and a `TcpSocket` (`tls_socket.cpp`,
`detail/tls_error_mapping.hpp`).

The library is its environment's choice: a call of it is any series of calls of
`f_send` and `f_recv` that ends with any code.  The transport is what the socket
sees of its `TcpSocket`: whether a connect is outstanding, whether it is connected
or closed, and the writes it has accepted.  It answers a write at once with
failure when it is closed or when the system refuses the write, and all other
callbacks come from the loop.

As for `TcpSocket`, each function runs to its first callback or library call and
the rest waits on the control stack.  A failed `CXXKIT_CHECK` and the call of an
empty function have no next state; the use of a reference to a destroyed element
is recorded in the state.
-/

namespace CxxKit.TlsSocket

open CxxKit.Network Reentrant

/-! ### Codes of mbedTLS -/

def errX509CertVerifyFailed : Int := -0x2700
def errSslWantWrite : Int := -0x6880
def errSslWantRead : Int := -0x6900
def errSslBufferTooSmall : Int := -0x6A00
def errSslHandshakeFailure : Int := -0x6E00
def errSslBadInputData : Int := -0x7100
def errSslConnEof : Int := -0x7280
def errSslFatalAlertMessage : Int := -0x7780
def errSslPeerCloseNotify : Int := -0x7880

/-- `map_tls_error`. -/
def mapTlsError (rc : Int) : SocketError :=
  if rc = errSslPeerCloseNotify then .kTlsPeerClosed
  else if rc = errX509CertVerifyFailed then .kTlsCertificateError
  else if rc = errSslFatalAlertMessage then .kTlsHandshakeFailed
  else if rc = errSslHandshakeFailure then .kTlsHandshakeFailed
  else if rc = errSslBadInputData then .kTlsHandshakeFailed
  else if rc ≤ -0x2000 ∧ -0x3000 ≤ rc then .kTlsCertificateError
  else if rc ≤ -0x1000 then .kTlsProtocolError
  else .kUnknown

def tlsWantRetry (rc : Int) : Bool :=
  rc = errSslWantRead || rc = errSslWantWrite

/-! ### State -/

/-- The two kinds of writes: a record of the out-box, and the one that `begin_close` forwards. -/
inductive TransportWrite where
  | record
  | notify
  deriving DecidableEq, Repr

/-- The `TcpSocket` below.  `armed` says that its read and error callbacks are the bridge's. -/
structure Transport where
  connecting : Bool := false
  connected : Bool := false
  closed : Bool := false
  armed : Bool := false
  writing : List TransportWrite := []
  deriving DecidableEq, Repr

/-- `TlsSocketPrivate::PendingWrite`; the number of the `write` call stands for its callback. -/
structure PendingWrite where
  mOnWritten : Nat
  mData : List UInt8
  deriving DecidableEq, Repr

/-- What the data callback is given: plaintext, or null data. -/
inductive ReadEvent where
  | data (bytes : List UInt8)
  | terminal
  deriving DecidableEq, Repr

/-- `TlsSocketPrivate` with its transport and the history of the calls. -/
structure State where
  mState : SocketState := .kIdle
  mLastError : SocketError := .kNone
  mCloseRequested : Bool := false
  mOnConnected : Option Nat := none
  mOnData : Bool := false
  mOutBox : List (List UInt8) := []
  mInRing : List UInt8 := []
  mInRead : Nat := 0
  mWriteInFlight : Bool := false
  mConfigured : Bool := false
  mSslReady : Bool := false
  mDone : Bool := false
  mTransportEof : Bool := false
  mPendingWrites : List PendingWrite := []
  mVerifyMode : Int := 2
  mCaPath : String := ""
  mOwnCertPath : String := ""
  mOwnKeyPath : String := ""
  mTransport : Option Transport := none
  /-- Calls of `connect_tls` and `start_tls`. -/
  entries : Nat := 0
  /-- Invocations of their callbacks. -/
  connected : List (Nat × Bool) := []
  /-- `mbedtls_ssl_handshake` has returned zero. -/
  completed : Bool := false
  /-- Calls of `write`. -/
  writes : List (List UInt8) := []
  /-- Invocations of their callbacks. -/
  written : List (Nat × Bool) := []
  /-- Bytes of each write that `mbedtls_ssl_write` has accepted. -/
  accepted : List (Nat × List UInt8) := []
  /-- A reference to a destroyed element of `mPendingWrites` has been used. -/
  dangling : Bool := false
  /-- Invocations of the data callback. -/
  reads : List ReadEvent := []
  /-- Records accepted from `f_send`, and those given to the transport. -/
  sent : List (List UInt8) := []
  submitted : List (List UInt8) := []
  /-- Ciphertext received, and what `f_recv` has served of it. -/
  received : List UInt8 := []
  served : List UInt8 := []
  errors : List (SocketError × String) := []
  deriving DecidableEq, Repr

/-- A call the library makes of the bridge. -/
inductive Bio where
  | send (record : List UInt8)
  | recv (len : Nat)
  deriving DecidableEq, Repr

/-- The answers of the environment to the calls that one step may make. -/
structure Answer where
  /-- The next call of the bridge; a library call without one returns `rc`. -/
  bio : Option Bio := none
  rc : Int := 0
  /-- The buffer `mbedtls_ssl_read` fills. -/
  buffer : List UInt8 := []
  verifyFlags : Nat := 0
  /-- A write fails inside the call. -/
  refused : Bool := false
  /-- A connect fails inside the call. -/
  unreachable : Bool := false
  defaults : Int := 0
  caFile : Int := 0
  ownFiles : Int := 0
  ownCert : Int := 0
  setup : Int := 0
  deriving DecidableEq, Repr

/-- What is left of a function that a callback or a library call has interrupted. -/
inductive Rest where
  /-- `connect_tls` from the call of the transport on. -/
  | transportConnect
  | attachBridge
  /-- `attach_bridge` after `freeze_config`. -/
  | setupSsl
  | driveHandshake
  /-- Inside `mbedtls_ssl_handshake`. -/
  | inHandshake
  /-- `drive_handshake` from `pump_write` on. -/
  | flushHandshake
  /-- `drive_handshake` from `set_state(kConnected)` on. -/
  | handshakeConnected
  /-- `drive_handshake` from the delivery of the callback on. -/
  | deliverConnected
  /-- `finish_error` after `report_error`. -/
  | failHandshake
  | beginClose
  /-- `begin_close` after `set_state(kClosing)`. -/
  | closeNotify
  /-- Inside `mbedtls_ssl_close_notify`. -/
  | inCloseNotify
  /-- The loop of `begin_close` and what follows it. -/
  | discardWrites (notify : List UInt8)
  /-- The last line of `begin_close`. -/
  | closed
  /-- The transport's own `begin_close`. -/
  | transportClose
  | pumpWrite
  | onRedrive
  /-- `on_redrive` after `drive_handshake`. -/
  | redrivePlaintext
  | pumpPlaintextWrite
  /-- Inside `mbedtls_ssl_write`, with the front of the queue at the time of the call. -/
  | inWrite (head : Nat)
  /-- `pump_plaintext_write` after the callback of a write that failed. -/
  | writePeerClosed
  | writeFailed (rc : Int)
  | pumpPlaintext
  /-- Inside `mbedtls_ssl_read`. -/
  | inRead
  /-- `pump_plaintext` after the terminal event. -/
  | peerClosed (message : String)
  /-- The read callback after `on_redrive`. -/
  | compact
  deriving DecidableEq, Repr

abbrev Step := Outcome State Rest

namespace State

def setState (state : SocketState) (s : State) : Step :=
  ({ s with mState := state }, [.callback])

def reportError (error : SocketError) (message : String) (s : State) : Step :=
  ({ s with mLastError := error, errors := s.errors ++ [(error, message)] }, [.callback])

/-- `mOnConnected` is moved out and called. -/
def invokeConnected (ok : Bool) (s : State) : Step :=
  match s.mOnConnected with
  | some n => ({ s with mOnConnected := none, connected := s.connected ++ [(n, ok)] }, [.callback])
  | none => (s, [])

/-- The callback of a write. -/
def invokeWritten (n : Nat) (ok : Bool) (s : State) : Step :=
  ({ s with written := s.written ++ [(n, ok)] }, [.callback])

/-! ### Failing and closing -/

def finishError (error : SocketError) (message : String) (s : State) : Step :=
  (s.reportError error message).andThen .failHandshake

variable (s : State)

def failHandshake : Step :=
  if s.mDone then (s, [.rest .beginClose])
  else (invokeConnected false { s with mDone := true }).andThen .beginClose

def beginClose : Step :=
  if s.mCloseRequested then (s, [])
  else if s.mState = .kClosed then ({ s with mCloseRequested := true }, [.rest .closeNotify])
  else (setState .kClosing { s with mCloseRequested := true }).andThen .closeNotify

/-- `TcpSocket::is_open`. -/
def transportOpen : Bool :=
  match s.mTransport with
  | some t => !t.closed
  | none => false

/-- A record that waits in the out-box and is not in flight is kept to be forwarded. -/
def captureNotify : Step :=
  let notify := if s.mSslReady ∧ s.mWriteInFlight = false then s.mOutBox.headD [] else []
  ({ s with mOutBox := [] }, [.rest (.discardWrites notify)])

def closeNotify : Step :=
  if s.mSslReady ∧ s.transportOpen then (s, [.rest .inCloseNotify]) else s.captureNotify

/-- `TcpSocket::close`.  An outstanding connect completes with failure inside it; only an
injected transport can have a state callback of its own. -/
def transportClose : Step :=
  match s.mTransport with
  | none => (s, [])
  | some t =>
    if t.closed then (s, [])
    else if t.connecting then
      (invokeConnected false { s with
        mTransport := some { t with closed := true, connecting := false } }).andThen .beginClose
    else ({ s with mTransport := some { t with closed := true } }, [.callback])

/-- The callback of the write that `begin_close` forwards. -/
def notifyWritten : Step :=
  if s.mCloseRequested = false ∨ s.mTransport.isNone then (s, [])
  else s.transportClose.andThen .closed

/-! ### The bridge -/

/-- The callback of a write of a record. -/
def recordWritten (ok : Bool) (s : State) : Step :=
  if s.mCloseRequested then (s, [])
  else if ok then
    ({ s with mWriteInFlight := false, mOutBox := s.mOutBox.tail },
      [.rest .pumpWrite, .rest .onRedrive])
  else finishError .kEof "TlsSocket: transport write failed" { s with mWriteInFlight := false }

def transportWritten (write : TransportWrite) (ok : Bool) (s : State) : Step :=
  match write with
  | .record => s.recordWritten ok
  | .notify => s.notifyWritten

/-- `TcpSocket::write`. -/
def transportWrite (write : TransportWrite) (answer : Answer) (s : State) : Option Step :=
  match s.mTransport with
  | none => none
  | some t =>
    if t.closed then some (s.transportWritten write false)
    else if t.connected = false then none
    else if answer.refused then some (s.transportWritten write false)
    else some ({ s with mTransport := some { t with writing := t.writing ++ [write] } }, [])

def pumpWrite (answer : Answer) (s : State) : Option Step :=
  match s.mOutBox with
  | [] => some (s, [])
  | record :: _ =>
    if s.mSslReady = false ∨ s.mTransport.isNone ∨ s.mWriteInFlight then some (s, [])
    else transportWrite .record answer
      { s with mWriteInFlight := true, submitted := s.submitted ++ [record] }

/-- `f_send`, which answers would-block while a record is waiting. -/
def fSend (record : List UInt8) (answer : Answer) (s : State) : Option Step :=
  if s.mWriteInFlight ∨ s.mOutBox ≠ [] then some (s, [])
  else pumpWrite answer { s with mOutBox := s.mOutBox ++ [record], sent := s.sent ++ [record] }

def fRecv (len : Nat) (s : State) : State :=
  let window := (s.mInRing.drop s.mInRead).take len
  { s with mInRead := s.mInRead + window.length, served := s.served ++ window }

def bio (call : Bio) (answer : Answer) (s : State) : Option Step :=
  match call with
  | .send record => s.fSend record answer
  | .recv len => some (s.fRecv len, [])

/-- A library call: it calls the bridge and goes on as `k`, or returns. -/
def library (k : Rest) (returned : State → Option Step) (answer : Answer) (s : State) :
    Option Step :=
  match answer.bio with
  | some call => (s.bio call answer).map fun r => r.andThen k
  | none => returned s

/-- What follows the loop of `begin_close`. -/
def closeTransport (notify : List UInt8) (answer : Answer) (s : State) : Option Step :=
  match s.mTransport with
  | none => some (s.setState .kClosed)
  | some t =>
    let s := { s with mTransport := some { t with armed := false } }
    if notify = [] then some (s.transportClose.andThen .closed)
    else s.transportWrite .notify answer

def discardWrites (notify : List UInt8) (answer : Answer) (s : State) : Option Step :=
  match s.mPendingWrites with
  | [] => s.closeTransport notify answer
  | pending :: rest =>
    some ((invokeWritten pending.mOnWritten false { s with mPendingWrites := rest }).andThen
      (.discardWrites notify))

/-! ### Decrypted data -/

/-- A copy of `mOnData` is called. -/
def deliver (event : ReadEvent) (s : State) : Option Step :=
  if s.mOnData then some ({ s with reads := s.reads ++ [event] }, [.callback]) else none

def pumpPlaintext : Option Step :=
  if s.mOnData ∧ s.mState = .kConnected ∧ s.mCloseRequested = false then
    if s.mTransportEof then
      (s.deliver .terminal).map fun r =>
        r.andThen (.peerClosed "TlsSocket: transport EOF under TLS")
    else some (s, [.rest .inRead])
  else some (s, [])

def readReturned (answer : Answer) (s : State) : Option Step :=
  if tlsWantRetry answer.rc then some (s, [])
  else if answer.rc = errSslPeerCloseNotify ∨ answer.rc = 0 then
    (s.deliver .terminal).map fun r =>
      r.andThen (.peerClosed "TlsSocket: peer closed the TLS session")
  else if answer.rc = errSslConnEof then
    (s.deliver .terminal).map fun r => r.andThen (.peerClosed "TlsSocket: transport EOF under TLS")
  else if answer.rc = errSslBufferTooSmall then some (s, [])
  else if answer.rc < 0 then
    some (s.finishError (mapTlsError answer.rc)
      ("TlsSocket: read failed (mbedtls rc " ++ toString answer.rc ++ ")"))
  else
    (s.deliver (.data (answer.buffer.take answer.rc.toNat))).map fun r => r.andThen .pumpPlaintext

def peerClosed (message : String) (s : State) : Step :=
  (s.reportError .kTlsPeerClosed message).andThen .beginClose

/-! ### Pending writes -/

def pumpPlaintextWrite : Step :=
  if s.mState = .kConnected ∧ s.mCloseRequested = false then
    match s.mPendingWrites with
    | [] => (s, [])
    | head :: rest =>
      if head.mData = [] then
        (invokeWritten head.mOnWritten true { s with mPendingWrites := rest }).andThen
          .pumpPlaintextWrite
      else (s, [.rest (.inWrite head.mOnWritten)])
  else (s, [])

/-- `mbedtls_ssl_write` returns: `head` is a reference to what was the front of the queue.  A
failure clears the queue and calls back for the front only. -/
def writeReturned (number : Nat) (rc : Int) (s : State) : Step :=
  if tlsWantRetry rc then (s, [])
  else match s.mPendingWrites with
  | [] => ({ s with dangling := true }, [])
  | head :: rest =>
    if head.mOnWritten ≠ number then ({ s with dangling := true }, [])
    else if rc = errSslPeerCloseNotify ∨ rc = 0 then
      (invokeWritten number false { s with mPendingWrites := [] }).andThen .writePeerClosed
    else if rc < 0 then
      (invokeWritten number false { s with mPendingWrites := [] }).andThen (.writeFailed rc)
    else if head.mData.length ≤ rc.toNat then
      (invokeWritten number true { s with
        mPendingWrites := rest, accepted := s.accepted ++ [(number, head.mData)] }).andThen
          .pumpPlaintextWrite
    else
      ({ s with
        mPendingWrites := { head with mData := head.mData.drop rc.toNat } :: rest
        accepted := s.accepted ++ [(number, head.mData.take rc.toNat)] }, [])

def writePeerClosed : Step :=
  ({ s with mLastError := .kTlsPeerClosed }, [.rest .beginClose])

def writeFailed (rc : Int) (s : State) : Step :=
  s.finishError (mapTlsError rc) ("TlsSocket: write failed (mbedtls rc " ++ toString rc ++ ")")

/-! ### Handshake -/

def driveHandshake : Step :=
  if s.mDone then (s, []) else (s, [.rest .inHandshake])

def handshakeReturned (rc : Int) (s : State) : Step :=
  if rc = 0 then ({ s with mDone := true, completed := true }, [.rest .flushHandshake])
  else if tlsWantRetry rc then (s, [])
  else s.finishError (mapTlsError rc)
    ("TlsSocket: handshake failed (mbedtls rc " ++ toString rc ++ ")")

/-- A context that is not set up refuses the handshake. -/
def inHandshake (answer : Answer) (s : State) : Option Step :=
  if s.mSslReady then
    s.library .inHandshake (fun s => some (s.handshakeReturned answer.rc)) answer
  else some (s.handshakeReturned errSslBadInputData)

def flushHandshake (answer : Answer) (s : State) : Option Step :=
  (s.pumpWrite answer).map fun r => r.andThen .handshakeConnected

def handshakeConnected : Step :=
  (s.setState .kConnected).andThen .deliverConnected

def deliverConnected (answer : Answer) (s : State) : Step :=
  let error :=
    if s.mVerifyMode = 1 ∧ answer.verifyFlags ≠ 0 then .kTlsCertificateError else s.mLastError
  (invokeConnected true { s with mLastError := error }).andThen .pumpPlaintext

/-! ### Re-driving -/

def redrivePlaintext : Step :=
  if s.mCloseRequested = false ∧ s.mDone ∧ s.mState = .kConnected then
    (s, (if s.mPendingWrites = [] then [] else [.rest .pumpPlaintextWrite])
      ++ [.rest .pumpPlaintext])
  else (s, [])

def onRedrive : Step :=
  if s.mCloseRequested then (s, [])
  else if s.mDone then s.redrivePlaintext
  else (s, [.rest .driveHandshake, .rest .redrivePlaintext])

def compact : State :=
  { s with mInRing := s.mInRing.drop s.mInRead, mInRead := 0 }

/-! ### Attaching the bridge -/

/-- The failures of `freeze_config`, in the order it meets them. -/
def configFailure (answer : Answer) (s : State) : Option (SocketError × String) :=
  if s.mConfigured then none
  else if answer.defaults ≠ 0 then
    some (mapTlsError answer.defaults,
      "TlsSocket: config defaults failed (mbedtls rc " ++ toString answer.defaults ++ ")")
  else if s.mCaPath ≠ "" ∧ answer.caFile ≠ 0 then
    some (.kTlsCertificateError, "TlsSocket: failed to parse CA file: " ++ s.mCaPath)
  else if s.mOwnCertPath ≠ "" ∧ s.mOwnKeyPath ≠ "" then
    if answer.ownFiles ≠ 0 then
      some (.kTlsCertificateError, "TlsSocket: failed to parse own certificate/key")
    else if answer.ownCert ≠ 0 then
      some (.kTlsHandshakeFailed, "TlsSocket: conf_own_cert failed (key/cert mismatch?)")
    else none
  else none

def attachBridge (answer : Answer) (s : State) : Step :=
  if s.mSslReady ∨ s.mCloseRequested ∨ s.mTransport.isNone then (s, [])
  else match s.configFailure answer with
  | some (error, message) =>
    (finishError error message { s with mConfigured := true }).andThen .setupSsl
  | none => ({ s with mConfigured := true }, [.rest .setupSsl])

/-- `TcpSocket::read_start` checks that the transport is open and connected. -/
def setupSsl (answer : Answer) (s : State) : Option Step :=
  if s.mCloseRequested then some (s, [])
  else if answer.setup ≠ 0 then
    some (s.finishError .kTlsHandshakeFailed "TlsSocket: ssl_setup failed")
  else match s.mTransport with
  | none => none
  | some t =>
    if t.closed = false ∧ t.connected then
      some ({ s with mSslReady := true, mTransport := some { t with armed := true } }, [])
    else none

/-- The transport fails to connect, and then closes itself. -/
def connectFailed : Step :=
  ((s.invokeConnected false).andThen .beginClose).andThen .transportClose

def connectSucceeded : Step :=
  if s.mCloseRequested then (s, []) else (s, [.rest .attachBridge, .rest .driveHandshake])

/-- `TcpSocket::connect`, which checks that the transport is idle. -/
def transportConnect (answer : Answer) (s : State) : Option Step :=
  match s.mTransport with
  | none => none
  | some t =>
    if t.closed ∨ t.connecting ∨ t.connected then none
    else if answer.unreachable then some s.connectFailed
    else some ({ s with mTransport := some { t with connecting := true } }, [])

/-! ### The public calls -/

/-- The entry points: `mOnConnected` is set and the state is `kConnecting`. -/
def enter : Step :=
  setState .kConnecting
    { s with mOnConnected := some s.entries, entries := s.entries + 1, mDone := false }

def connectTls : Option Step :=
  if s.mState = .kIdle ∧ s.mTransport.isNone ∧ s.mCloseRequested = false then
    some ((enter { s with mTransport := some {} }).andThen .transportConnect)
  else none

def startTls : Option Step :=
  if s.mState = .kIdle ∧ s.mTransport.isSome then
    some ((s.enter.andThen .attachBridge).andThen .driveHandshake)
  else none

/-- A transport is injected, which is to be connected and open. -/
def setTransport (connected closed : Bool) (s : State) : Option Step :=
  if s.mState = .kIdle then
    some ({ s with mTransport := some { connected := connected, closed := closed } }, [])
  else none

def write (data : List UInt8) (s : State) : Option Step :=
  if s.mState = .kConnected ∧ s.mCloseRequested = false then
    some ({ s with
      mPendingWrites := s.mPendingWrites ++ [⟨s.writes.length, data⟩]
      writes := s.writes ++ [data] }, [.rest .pumpPlaintextWrite, .rest .pumpPlaintext])
  else none

def readStart : Step :=
  ({ s with mOnData := true }, [.rest .pumpPlaintext])

def readStop : Step := ({ s with mOnData := false }, [])

def close : Step :=
  if s.mState = .kClosed ∨ s.mCloseRequested then (s, []) else s.beginClose

/-! ### The callbacks of the transport -/

def onConnectDone (ok : Bool) (s : State) : Option Step :=
  match s.mTransport with
  | none => none
  | some t =>
    if t.connecting then
      let s := { s with mTransport := some { t with connecting := false, connected := ok } }
      some (if ok then s.connectSucceeded else s.connectFailed)
    else none

/-- The oldest write completes. -/
def onWriteDone (ok : Bool) (s : State) : Option Step :=
  match s.mTransport with
  | none => none
  | some t => match t.writing with
    | [] => none
    | write :: rest =>
      some (transportWritten write ok { s with mTransport := some { t with writing := rest } })

/-- The transport reads only while it is open and armed. -/
def transportArmed : Bool :=
  match s.mTransport with
  | some t => t.armed && !t.closed
  | none => false

def onRead (bytes : List UInt8) (s : State) : Option Step :=
  if s.transportArmed ∧ bytes ≠ [] then
    some ({ s with mInRing := s.mInRing ++ bytes, received := s.received ++ bytes },
      [.rest .onRedrive, .rest .compact])
  else none

/-- The error callback, after which the transport closes itself. -/
def onReadFailed : Option Step :=
  if s.transportArmed then
    some (Outcome.andThen
      (if s.mDone = false then s.finishError .kEof "TlsSocket: transport EOF/error"
       else if s.mState = .kConnected then ({ s with mTransportEof := true }, [.rest .onRedrive])
       else (s, [])) .transportClose)
  else none

end State

/-! ### The machine -/

inductive Call where
  | setVerifyMode (mode : Int)
  | setCaPath (path : String)
  | setCertificate (path : String)
  | setPrivateKey (path : String)
  | setTransport (connected closed : Bool)
  | connectTls
  | startTls
  | write (data : List UInt8)
  | readStart
  | readStop
  | close
  deriving DecidableEq, Repr

inductive Event where
  | onConnectDone (ok : Bool)
  | onWriteDone (ok : Bool)
  | onRead (bytes : List UInt8)
  | onReadFailed
  deriving DecidableEq, Repr

def call (s : State) : Call → Option Step
  | .setVerifyMode mode => some ({ s with mVerifyMode := mode }, [])
  | .setCaPath path => some ({ s with mCaPath := path }, [])
  | .setCertificate path => some ({ s with mOwnCertPath := path }, [])
  | .setPrivateKey path => some ({ s with mOwnKeyPath := path }, [])
  | .setTransport connected closed => s.setTransport connected closed
  | .connectTls => s.connectTls
  | .startTls => s.startTls
  | .write data => s.write data
  | .readStart => some s.readStart
  | .readStop => some s.readStop
  | .close => some s.close

def resume (s : State) (rest : Rest) (answer : Answer) : Option Step :=
  match rest with
  | .transportConnect => s.transportConnect answer
  | .attachBridge => some (s.attachBridge answer)
  | .setupSsl => s.setupSsl answer
  | .driveHandshake => some s.driveHandshake
  | .inHandshake => s.inHandshake answer
  | .flushHandshake => s.flushHandshake answer
  | .handshakeConnected => some s.handshakeConnected
  | .deliverConnected => some (s.deliverConnected answer)
  | .failHandshake => some s.failHandshake
  | .beginClose => some s.beginClose
  | .closeNotify => some s.closeNotify
  | .inCloseNotify => s.library .inCloseNotify (fun s => some s.captureNotify) answer
  | .discardWrites notify => s.discardWrites notify answer
  | .closed => some (s.setState .kClosed)
  | .transportClose => some s.transportClose
  | .pumpWrite => s.pumpWrite answer
  | .onRedrive => some s.onRedrive
  | .redrivePlaintext => some s.redrivePlaintext
  | .pumpPlaintextWrite => some s.pumpPlaintextWrite
  | .inWrite head =>
    s.library (.inWrite head) (fun s => some (s.writeReturned head answer.rc)) answer
  | .writePeerClosed => some s.writePeerClosed
  | .writeFailed rc => some (s.writeFailed rc)
  | .pumpPlaintext => s.pumpPlaintext
  | .inRead => s.library .inRead (fun s => s.readReturned answer) answer
  | .peerClosed message => some (s.peerClosed message)
  | .compact => some (s.compact, [])

def event (s : State) : Event → Option Step
  | .onConnectDone ok => s.onConnectDone ok
  | .onWriteDone ok => s.onWriteDone ok
  | .onRead bytes => s.onRead bytes
  | .onReadFailed => s.onReadFailed

def program : Program State Rest Call Answer Event where
  init := {}
  call := call
  resume := resume
  event := event

end CxxKit.TlsSocket
