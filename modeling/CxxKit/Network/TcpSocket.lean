import CxxKit.Lib.Reentrant
import CxxKit.Network.SocketTypes

/-!
`TcpSocket` over the libuv stream backend (`tcp_socket.cpp`,
`detail/stream_backend_uv.cpp`).

All calls and callbacks run on the loop thread, so a run is a sequence of calls
of user code, returns of callbacks, resumptions of interrupted functions and
events of libuv.  Each function below runs to its first callback; what is left of
it then waits on the control stack as a `Rest`.  A callback that is not installed
behaves as one that returns at once, except where the code asks whether it is
installed.  A failed `CXXKIT_CHECK` has no next state.
-/

namespace CxxKit.TcpSocket

open CxxKit.Network Reentrant

/-- `UvStreamBackend::PendingWrite`; the number of the `write` call stands for its callback. -/
structure PendingWrite where
  mOnWritten : Nat
  mData : List UInt8
  deriving DecidableEq, Repr

/-- What the data callback is given: bytes, or null data with a code. -/
inductive ReadEvent where
  | data (bytes : List UInt8)
  | terminal (code : Int)
  deriving DecidableEq, Repr

def ReadEvent.isTerminal : ReadEvent → Bool
  | .data _ => false
  | .terminal _ => true

/-- `UvStreamBackend`.  Of the functions it is handed only their presence is kept: they all
lead into the socket that owns it. -/
structure UvStreamBackend where
  mHandle : Option Nat := none
  mConnectReq : Option Nat := none
  mWriteReq : Option Nat := none
  mOnConnect : Bool := false
  mOnData : Bool := false
  mOnClosed : Bool := false
  mOnWrittenCurrent : Option Nat := none
  mPendingWrites : List PendingWrite := []
  mInFlight : List UInt8 := []
  mReadArmed : Bool := false
  mCloseRequested : Bool := false
  mNativeStatus : Int := 0
  deriving DecidableEq, Repr

/-- libuv: the handles made, those passed to `uv_close`, those whose close callback has run,
and the requests it has accepted and not completed. -/
structure Uv where
  handles : Nat := 0
  closing : List Nat := []
  released : List Nat := []
  requests : Nat := 0
  connecting : List Nat := []
  writing : List Nat := []
  deriving DecidableEq, Repr

/-- `TcpSocketPrivate` with its backend, libuv and the history of the calls. -/
structure State where
  mState : SocketState := .kIdle
  mLastError : SocketError := .kNone
  mCloseRequested : Bool := false
  mOnConnect : Option Nat := none
  mOnData : Bool := false
  mBackend : UvStreamBackend := {}
  uv : Uv := {}
  /-- Accepted calls of `connect`. -/
  connects : Nat := 0
  /-- Invocations of their callbacks. -/
  connected : List (Nat × Bool) := []
  /-- Calls of `write`. -/
  writes : List PendingWrite := []
  /-- Invocations of their callbacks. -/
  written : List (Nat × Bool) := []
  /-- Writes passed to `uv_write`. -/
  submitted : List PendingWrite := []
  /-- Invocations of the data callback. -/
  reads : List ReadEvent := []
  /-- States given to `set_state`. -/
  reported : List SocketState := []
  /-- Errors given to `report_error`. -/
  errors : List (SocketError × String) := []
  deriving DecidableEq, Repr

/-- What is left of a function that a callback has interrupted. -/
inductive Rest where
  /-- `TcpSocket::connect` from the call of the backend on. -/
  | backendConnect (ip : String) (port : UInt16)
  /-- `connect_done` after `report_error`. -/
  | failConnecting (ok : Bool)
  /-- `connect_done` from the delivery of the callback on. -/
  | deliverConnect (ok : Bool)
  /-- `connect_done` after the callback. -/
  | afterConnect (ok : Bool)
  /-- `connect_done` after `begin_close`. -/
  | resetIdle
  /-- `TcpSocketPrivate::begin_close` after `set_state(kClosing)`. -/
  | discardConnect
  /-- The call of the backend's `close`, with or without a callback. -/
  | backendClose (notify : Bool)
  /-- The loop of `UvStreamBackend::begin_close` and what follows it. -/
  | discardWrites (discards : List PendingWrite)
  /-- The end of `UvStreamBackend::begin_close`. -/
  | closeHandle
  | submitNextWrite
  /-- `read_event` after `report_error`. -/
  | readTerminal (nread : Int)
  /-- `read_event` after the terminal event, then the end of `on_read`. -/
  | afterTerminal
  | backendBeginClose
  deriving DecidableEq, Repr

abbrev Step := Outcome State Rest

namespace State

/-! ### `TcpSocketPrivate` -/

def setState (state : SocketState) (s : State) : Step :=
  ({ s with mState := state, reported := s.reported ++ [state] }, [.callback])

def reportError (error : SocketError) (message : String) (s : State) : Step :=
  ({ s with mLastError := error, errors := s.errors ++ [(error, message)] }, [.callback])

variable (s : State)

/-- `UvStreamBackend::is_open`. -/
def isOpen : Bool := s.mBackend.mHandle.isSome && !s.mBackend.mCloseRequested

def beginClose : Step :=
  if s.mCloseRequested then (s, [])
  else if s.mState = .kClosed ∨ s.isOpen = false then
    (setState .kClosed { s with mCloseRequested := true }).andThen (.backendClose false)
  else
    (setState .kClosing { s with mCloseRequested := true }).andThen .discardConnect

def discardConnect : Step :=
  match s.mOnConnect with
  | some n =>
    ({ s with mOnConnect := none, connected := s.connected ++ [(n, false)] },
      [.callback, .rest (.backendClose true)])
  | none => (s, [.rest (.backendClose true)])

def connectFailedMessage (status : Int) : String :=
  "TcpSocket: connect failed (native status " ++ toString status ++ ")"

def connectDone (ok : Bool) (s : State) : Step :=
  if ok ∧ s.mState = .kConnecting then
    (setState .kConnected s).andThen (.deliverConnect ok)
  else if s.mCloseRequested = false then
    (reportError (mapTransportError s.mBackend.mNativeStatus)
      (connectFailedMessage s.mBackend.mNativeStatus) s).andThen (.failConnecting ok)
  else (s, [.rest (.deliverConnect ok)])

def failConnecting (ok : Bool) (s : State) : Step :=
  if s.mState = .kConnecting then
    (setState .kClosing s).andThen (.deliverConnect ok)
  else (s, [.rest (.deliverConnect ok)])

def deliverConnect (ok : Bool) (s : State) : Step :=
  match s.mOnConnect with
  | some n =>
    ({ s with mOnConnect := none, connected := s.connected ++ [(n, ok)] },
      [.callback, .rest (.afterConnect ok)])
  | none => (s, [.rest (.afterConnect ok)])

def afterConnect (ok : Bool) (s : State) : Step :=
  if ok = false ∧ s.mState = .kClosing ∧ s.mCloseRequested = false then
    s.beginClose.andThen .resetIdle
  else (s, [])

def resetIdle : Step :=
  if s.mState = .kClosing then setState .kIdle s else (s, [])

/-- The callback `begin_close` gives to the backend's `close`. -/
def closeDone : Step :=
  if s.mState = .kIdle then (s, []) else setState .kClosed s

def readErrorMessage (error : SocketError) (nread : Int) : String :=
  if error = .kEof then "TcpSocket: end of file (peer closed)"
  else "TcpSocket: read error (transport status " ++ toString nread ++ ")"

/-- `read_event` for `nread ≥ 0`. -/
def readData (bytes : List UInt8) (s : State) : Step :=
  if s.mOnData then ({ s with reads := s.reads ++ [.data bytes] }, [.callback]) else (s, [])

/-- `read_event` for `nread < 0`. -/
def readFailed (nread : Int) (s : State) : Step :=
  let error := if nread = kBackendEof then .kEof else mapTransportError nread
  (reportError error (readErrorMessage error nread) s).andThen (.readTerminal nread)

def readTerminal (nread : Int) (s : State) : Step :=
  if s.mOnData then
    ({ s with mOnData := false, reads := s.reads ++ [.terminal nread] },
      [.callback, .rest .afterTerminal])
  else (s, [.rest .afterTerminal])

/-- `UvStreamBackend::read_stop`. -/
def backendReadStop : State :=
  { s with mBackend := { s.mBackend with mReadArmed := false } }

def afterTerminal : Step :=
  s.backendReadStop.beginClose.andThen .backendBeginClose

/-! ### `UvStreamBackend` -/

/-- `uv_tcp_init` and `uv_tcp_connect`, which answers `rc`. -/
def backendConnect (parses : String → Bool) (ip : String) (rc : Int) (s : State) : Step :=
  if parses ip = false then
    connectDone false { s with mBackend := { s.mBackend with mNativeStatus := -uvEinval } }
  else
    let s := { s with
      mBackend := { s.mBackend with mHandle := some s.uv.handles, mOnConnect := true }
      uv := { s.uv with handles := s.uv.handles + 1 } }
    if rc ≠ 0 then
      connectDone false
        { s with mBackend := { s.mBackend with mNativeStatus := rc, mOnConnect := false } }
    else
      ({ s with
        mBackend := { s.mBackend with mConnectReq := some s.uv.requests }
        uv := { s.uv with
          requests := s.uv.requests + 1, connecting := s.uv.connecting ++ [s.uv.requests] } }, [])

/-- The callback of a write. -/
def invokeWritten (n : Nat) (ok : Bool) (s : State) : Step :=
  ({ s with written := s.written ++ [(n, ok)] }, [.callback])

/-- `submit_next_write`, where `uv_write` answers `rc`. -/
def submitNextWrite (rc : Int) (s : State) : Step :=
  if s.mBackend.mWriteReq.isSome then (s, [])
  else match s.mBackend.mPendingWrites with
  | [] => (s, [])
  | pending :: rest =>
    let s := { s with
      mBackend := { s.mBackend with mPendingWrites := rest, mInFlight := pending.mData }
      submitted := s.submitted ++ [pending] }
    if rc ≠ 0 then
      (invokeWritten pending.mOnWritten false
        { s with mBackend := { s.mBackend with mInFlight := [] } }).andThen .submitNextWrite
    else
      ({ s with
        mBackend := { s.mBackend with
          mWriteReq := some s.uv.requests, mOnWrittenCurrent := some pending.mOnWritten }
        uv := { s.uv with
          requests := s.uv.requests + 1, writing := s.uv.writing ++ [s.uv.requests] } }, [])

def backendBeginClose : Step :=
  if s.mBackend.mCloseRequested then (s, [])
  else
    ({ s with mBackend := { s.mBackend with mCloseRequested := true, mPendingWrites := [] } },
      [.rest (.discardWrites s.mBackend.mPendingWrites)])

/-- `mOnData = nullptr` of the socket belongs to the path with a callback only. -/
def backendClose (notify : Bool) (s : State) : Step :=
  backendBeginClose { s with
    mOnData := s.mOnData && !notify, mBackend := { s.mBackend with mOnClosed := notify } }

def backendDiscardConnect : Step :=
  if s.mBackend.mOnConnect then
    (connectDone false { s with mBackend := { s.mBackend with mOnConnect := false } }).andThen
      .closeHandle
  else (s, [.rest .closeHandle])

def discardWrites (discards : List PendingWrite) (s : State) : Step :=
  match discards with
  | [] => s.backendDiscardConnect
  | pending :: rest => (invokeWritten pending.mOnWritten false s).andThen (.discardWrites rest)

/-- The callback given to `close` is taken and called. -/
def notifyClosed : Step :=
  if s.mBackend.mOnClosed then
    closeDone { s with mBackend := { s.mBackend with mOnClosed := false } }
  else (s, [])

def closeHandle : Step :=
  match s.mBackend.mHandle with
  | none => s.notifyClosed
  | some handle =>
    ({ s with
      mBackend := { s.mBackend with mReadArmed := false, mOnData := false }
      uv := { s.uv with closing :=
        if handle ∈ s.uv.closing then s.uv.closing else s.uv.closing ++ [handle] } }, [])

/-! ### The public calls -/

def connect (ip : String) (port : UInt16) (s : State) : Option Step :=
  if s.mState = .kIdle ∧ s.mCloseRequested = false then
    some ((setState .kConnecting
      { s with mOnConnect := some s.connects, connects := s.connects + 1 }).andThen
        (.backendConnect ip port))
  else none

def write (data : List UInt8) (rc : Int) (s : State) : Option Step :=
  let pending : PendingWrite := ⟨s.writes.length, data⟩
  let s := { s with writes := s.writes ++ [pending] }
  if s.mCloseRequested ∨ s.mState = .kClosing ∨ s.mState = .kClosed then
    some (s.invokeWritten pending.mOnWritten false)
  else if s.mState = .kConnected then
    some (submitNextWrite rc { s with mBackend := { s.mBackend with
      mPendingWrites := s.mBackend.mPendingWrites ++ [pending] } })
  else none

/-- The backend's handle, unless it is passed to `uv_close`. -/
def hasLiveHandle : Bool :=
  match s.mBackend.mHandle with
  | some handle => decide (handle ∉ s.uv.closing)
  | none => false

/-- `uv_read_start` refuses a handle that is closing, and the refusal fails a check. -/
def readStart : Option Step :=
  if s.mCloseRequested = false ∧ s.mState = .kConnected
      ∧ (s.mBackend.mReadArmed ∨ s.hasLiveHandle) then
    some ({ s with
      mOnData := true, mBackend := { s.mBackend with mOnData := true, mReadArmed := true } }, [])
  else none

/-! ### The trampolines of libuv -/

def onConnectDone (req : Nat) (status : Int) (s : State) : Option Step :=
  if req ∈ s.uv.connecting then
    let ok := decide (status = 0) && !s.mBackend.mCloseRequested
    let t := { s with
      mBackend := { s.mBackend with
        mConnectReq := if s.mBackend.mConnectReq = some req then none else s.mBackend.mConnectReq
        mNativeStatus := status
        mOnConnect := false }
      uv := { s.uv with connecting := s.uv.connecting.erase req } }
    some (if s.mBackend.mOnConnect then connectDone ok t else (t, []))
  else none

def onWriteDone (req : Nat) (status : Int) (s : State) : Option Step :=
  if req ∈ s.uv.writing then
    let t := { s with
      mBackend := { s.mBackend with
        mNativeStatus := status
        mOnWrittenCurrent := none
        mWriteReq := if s.mBackend.mWriteReq = some req then none else s.mBackend.mWriteReq
        mInFlight := [] }
      uv := { s.uv with writing := s.uv.writing.erase req } }
    some (match s.mBackend.mOnWrittenCurrent with
      | some n => (t.invokeWritten n (decide (status = 0))).andThen .submitNextWrite
      | none => (t, [.rest .submitNextWrite]))
  else none

/-- `on_read` with `nread ≥ 0`. -/
def onRead (bytes : List UInt8) (s : State) : Option Step :=
  if s.mBackend.mReadArmed ∧ s.hasLiveHandle then
    if bytes = [] then some (s, [])
    else if s.mBackend.mOnData then some (s.readData bytes)
    else some (s, [])
  else none

/-- `on_read` with `nread < 0`. -/
def onReadFailed (nread : Int) (s : State) : Option Step :=
  if s.mBackend.mReadArmed ∧ s.hasLiveHandle ∧ nread < 0 then
    let code := if nread = uvEof then kBackendEof else nread
    let t := { s with mBackend := { s.mBackend with mNativeStatus := nread, mOnData := false } }
    some (if s.mBackend.mOnData then readFailed code t else backendBeginClose t)
  else none

def onClosed (handle : Nat) (s : State) : Option Step :=
  if handle ∈ s.uv.closing ∧ handle ∉ s.uv.released then
    some (notifyClosed { s with
      mBackend := { s.mBackend with mHandle := none }
      uv := { s.uv with released := s.uv.released ++ [handle] } })
  else none

end State

/-! ### The machine -/

/-- Calls of user code.  A `write` that submits at once carries the answer of `uv_write`. -/
inductive Call where
  | connect (ip : String) (port : UInt16)
  | write (data : List UInt8) (rc : Int)
  | readStart
  | readStop
  | close
  deriving DecidableEq, Repr

inductive Event where
  | onConnectDone (req : Nat) (status : Int)
  | onWriteDone (req : Nat) (status : Int)
  | onRead (bytes : List UInt8)
  | onReadFailed (nread : Int)
  | onClosed (handle : Nat)
  deriving DecidableEq, Repr

def call (s : State) : Call → Option Step
  | .connect ip port => s.connect ip port
  | .write data rc => s.write data rc
  | .readStart => s.readStart
  | .readStop => some (s.backendReadStop, [])
  | .close => some s.beginClose

/-- The rest of a function runs; `rc` is what libuv answers to the request it makes, if any. -/
def resume (parses : String → Bool) (s : State) (rest : Rest) (rc : Int) : Step :=
  match rest with
  | .backendConnect ip _ => s.backendConnect parses ip rc
  | .failConnecting ok => s.failConnecting ok
  | .deliverConnect ok => s.deliverConnect ok
  | .afterConnect ok => s.afterConnect ok
  | .resetIdle => s.resetIdle
  | .discardConnect => s.discardConnect
  | .backendClose notify => s.backendClose notify
  | .discardWrites discards => s.discardWrites discards
  | .closeHandle => s.closeHandle
  | .submitNextWrite => s.submitNextWrite rc
  | .readTerminal nread => s.readTerminal nread
  | .afterTerminal => s.afterTerminal
  | .backendBeginClose => s.backendBeginClose

def event (s : State) : Event → Option Step
  | .onConnectDone req status => s.onConnectDone req status
  | .onWriteDone req status => s.onWriteDone req status
  | .onRead bytes => s.onRead bytes
  | .onReadFailed nread => s.onReadFailed nread
  | .onClosed handle => s.onClosed handle

/-- A socket as constructed, or one that has adopted a connected handle. -/
def initial (adopted : Bool) : State :=
  if adopted then
    { mState := .kConnected, reported := [.kConnected]
      mBackend := { mHandle := some 0 }, uv := { handles := 1 } }
  else {}

def program (parses : String → Bool) (adopted : Bool) : Program State Rest Call Int Event where
  init := initial adopted
  call := call
  resume s rest rc := some (resume parses s rest rc)
  event := event

end CxxKit.TcpSocket
