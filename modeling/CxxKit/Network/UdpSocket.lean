import CxxKit.Lib.Reentrant
import CxxKit.Network.SocketTypes

/-!
`UdpSocket` over the libuv datagram backend (`udp_socket.cpp`,
`detail/dgram_backend_uv.cpp`): binding, sending, the pinned peer and closing.

libuv keeps any number of sends in flight and completes them in the order of
their submission.  The socket keeps the callbacks in a queue of its own and gives
each completion to the front of the queue.
-/

namespace CxxKit.UdpSocket

open CxxKit.Network Reentrant

/-- A send: its number among the calls, which stands for its callback, and its destination. -/
structure Send where
  number : Nat
  ip : String
  port : UInt16
  data : List UInt8
  deriving DecidableEq, Repr

/-- What a function goes on with once the socket is bound. -/
inductive After where
  | submit (send : Send)
  | connect (ip : String) (port : UInt16)
  | done
  deriving DecidableEq, Repr

/-- The answers of the system to the calls that one step may make: zero is success. -/
structure Answer where
  bind : Int := 0
  broadcast : Int := 0
  send : Int := 0
  connect : Int := 0
  deriving DecidableEq, Repr

structure UvDgramBackend where
  mHandle : Bool := false
  mCloseRequested : Bool := false
  mConnected : Bool := false
  mNativeStatus : Int := 0
  deriving DecidableEq, Repr

/-- `UdpSocketPrivate` with its backend, the sends in flight and the history of the calls. -/
structure State where
  mState : SocketState := .kIdle
  mLastError : SocketError := .kNone
  mCloseRequested : Bool := false
  mPendingSendDones : List Nat := []
  mPeerIp : String := ""
  mPeerPort : UInt16 := 0
  mBroadcastPending : Bool := false
  mBackend : UvDgramBackend := {}
  /-- Sends accepted by libuv and not completed, in the order of their submission. -/
  requests : List Nat := []
  /-- Number of sends called. -/
  sends : Nat := 0
  /-- What became of each send: refused, failed, completed, or discarded by closing. -/
  outcomes : List (Nat × Bool) := []
  /-- Invocations of the callbacks of sends. -/
  done : List (Nat × Bool) := []
  errors : List (SocketError × String) := []
  deriving DecidableEq, Repr

inductive Rest where
  /-- A bind after the report of a failed deferred `set_broadcast`. -/
  | markBound (after : After)
  /-- After `set_state(kBound)`. -/
  | proceed (after : After)
  /-- `send_to` after the report of a failed implicit bind. -/
  | rejectSend (number : Nat)
  /-- `send_done` after `report_error`. -/
  | popDone (ok : Bool)
  /-- The loop of `begin_close` and what follows it. -/
  | discardSends (pending : List Nat)
  deriving DecidableEq, Repr

abbrev Step := Outcome State Rest

namespace State

def setState (state : SocketState) (s : State) : Step :=
  ({ s with mState := state }, [.callback])

def reportError (message : String) (s : State) : Step :=
  let error := mapTransportError s.mBackend.mNativeStatus
  ({ s with mLastError := error, errors := s.errors ++ [(error, message)] }, [.callback])

/-- The message of an error that names the backend's status. -/
def statusMessage (what : String) (s : State) : String :=
  "UdpSocket: " ++ what ++ " failed (native status " ++ toString s.mBackend.mNativeStatus ++ ")"

def setStatus (status : Int) (s : State) : State :=
  { s with mBackend := { s.mBackend with mNativeStatus := status } }

/-- The callback of a send. -/
def invokeDone (number : Nat) (ok : Bool) (s : State) : Step :=
  ({ s with done := s.done ++ [(number, ok)] }, [.callback])

def resolve (number : Nat) (ok : Bool) (s : State) : State :=
  { s with outcomes := s.outcomes ++ [(number, ok)] }

/-- `send_done` from the queue on. -/
def popDone (ok : Bool) (s : State) : Step :=
  match s.mPendingSendDones with
  | [] => (s, [])
  | number :: rest => invokeDone number ok { s with mPendingSendDones := rest }

def sendDone (ok : Bool) (s : State) : Step :=
  if ok then s.popDone ok
  else (s.reportError (s.statusMessage "send")).andThen (.popDone ok)

/-! ### Sending -/

variable (parses : String → Bool)

/-- `UvDgramBackend::send_to`.  Where the address does not parse, the callback has been moved
into the request that is deleted, and what is called is the empty function left behind. -/
def backendSendTo (answer : Answer) (send : Send) (s : State) : Step :=
  if s.mBackend.mCloseRequested ∨ s.mBackend.mHandle = false then
    sendDone false ((s.setStatus (-uvEshutdown)).resolve send.number false)
  else if parses send.ip = false then
    ((s.setStatus (-uvEinval)).resolve send.number false, [])
  else if answer.send ≠ 0 then
    sendDone false ((s.setStatus answer.send).resolve send.number false)
  else ({ s with requests := s.requests ++ [send.number] }, [])

/-- The end of `send_to` and `send`. -/
def submit (answer : Answer) (send : Send) (s : State) : Step :=
  backendSendTo parses answer send
    { s with mPendingSendDones := s.mPendingSendDones ++ [send.number] }

/-- The callback is invoked from `send_to` itself. -/
def rejectSend (number : Nat) (s : State) : Step :=
  (s.resolve number false).invokeDone number false

/-! ### Binding and the pinned peer -/

/-- `UvDgramBackend::connect` and what `connect_to` makes of it. -/
def connectPeer (answer : Answer) (ip : String) (port : UInt16) (s : State) : Step :=
  if s.mBackend.mCloseRequested ∨ s.mBackend.mHandle = false then
    let s := s.setStatus (-uvEshutdown)
    s.reportError (s.statusMessage "connect")
  else if parses ip = false then
    let s := s.setStatus (-uvEinval)
    s.reportError (s.statusMessage "connect")
  else if answer.connect ≠ 0 then
    let s := s.setStatus answer.connect
    s.reportError (s.statusMessage "connect")
  else
    setState .kConnected { s with
      mBackend := { s.mBackend with mConnected := true }, mPeerIp := ip, mPeerPort := port }

def proceed (answer : Answer) (after : After) (s : State) : Step :=
  match after with
  | .submit send => s.submit parses answer send
  | .connect ip port => s.connectPeer parses answer ip port
  | .done => (s, [])

def markBound (after : After) (s : State) : Step :=
  (s.setState .kBound).andThen (.proceed after)

/-- What follows a bind that fails. -/
def bindFailed (after : After) (s : State) : Step :=
  match after with
  | .submit send =>
    (s.reportError (s.statusMessage "implicit bind before send")).andThen
      (.rejectSend send.number)
  | .connect _ _ => s.reportError (s.statusMessage "implicit bind before connect")
  | .done => s.reportError (s.statusMessage "bind")

/-- `apply_pending_broadcast`, then `set_state(kBound)`. -/
def bindSucceeded (answer : Answer) (after : After) (s : State) : Step :=
  if s.mBroadcastPending then
    if answer.broadcast = 0 then
      markBound after { s.setStatus 0 with mBroadcastPending := false }
    else
      let s := s.setStatus answer.broadcast
      (s.reportError (s.statusMessage "deferred set_broadcast(true)")).andThen (.markBound after)
  else s.markBound after

/-- `UvDgramBackend::bind`, which checks that there is no handle. -/
def backendBind (answer : Answer) (ip : String) (after : After) (s : State) : Option Step :=
  if s.mBackend.mHandle then none
  else if s.mBackend.mCloseRequested then some (s.bindFailed after)
  else if parses ip = false then some ((s.setStatus (-uvEinval)).bindFailed after)
  else if answer.bind ≠ 0 then some ((s.setStatus answer.bind).bindFailed after)
  else some (bindSucceeded answer after { s with mBackend := { s.mBackend with mHandle := true } })

/-- The address of an implicit bind. -/
def lazyAddress : String := "0.0.0.0"

/-! ### The public calls -/

def sendTo (answer : Answer) (data : List UInt8) (ip : String)
    (port : UInt16) (s : State) : Option Step :=
  let send : Send := ⟨s.sends, ip, port, data⟩
  let s := { s with sends := s.sends + 1 }
  if s.mCloseRequested ∨ s.mState = .kClosed then some (s.rejectSend send.number)
  else if s.mState = .kIdle then s.backendBind parses answer lazyAddress (.submit send)
  else if s.mState = .kBound then some (s.submit parses answer send)
  else none

/-- `send` does not ask whether the socket is closing. -/
def send (answer : Answer) (data : List UInt8) (s : State) : Option Step :=
  if s.mState = .kConnected then
    some (submit parses answer ⟨s.sends, s.mPeerIp, s.mPeerPort, data⟩
      { s with sends := s.sends + 1 })
  else none

def connectTo (answer : Answer) (ip : String) (port : UInt16) (s : State) : Option Step :=
  if s.mCloseRequested then none
  else if s.mState = .kIdle then s.backendBind parses answer lazyAddress (.connect ip port)
  else if s.mState = .kBound then some (s.connectPeer parses answer ip port)
  else none

def disconnectRemote (s : State) : Option Step :=
  if s.mState = .kConnected then
    some (setState .kBound { s with
      mBackend := { s.mBackend with mConnected := false }, mPeerIp := "", mPeerPort := 0 })
  else none

def bind (answer : Answer) (ip : String) (s : State) : Option Step :=
  if s.mCloseRequested then none
  else if s.mState = .kIdle then s.backendBind parses answer ip .done
  else none

def setBroadcast (answer : Answer) (enable : Bool) (s : State) : Step :=
  if s.mCloseRequested ∨ s.mState = .kClosed then (s, [])
  else if s.mState = .kIdle then ({ s with mBroadcastPending := enable }, [])
  else if s.mBackend.mCloseRequested ∨ s.mBackend.mHandle = false then
    let s := s.setStatus (-uvEshutdown)
    s.reportError (s.statusMessage "set_broadcast")
  else if answer.broadcast ≠ 0 then
    let s := s.setStatus answer.broadcast
    s.reportError (s.statusMessage "set_broadcast")
  else (s.setStatus 0, [])

def beginClose (s : State) : Step :=
  if s.mCloseRequested then (s, [])
  else ({ s with mCloseRequested := true, mPendingSendDones := [] },
    [.rest (.discardSends s.mPendingSendDones)])

/-- The end of `begin_close` clears the queue once more. -/
def discardSends (pending : List Nat) (s : State) : Step :=
  match pending with
  | [] =>
    setState .kClosed { s with
      mPendingSendDones := [], mBroadcastPending := false, mPeerIp := "", mPeerPort := 0
      mBackend := { s.mBackend with mCloseRequested := true } }
  | number :: rest => (s.rejectSend number).andThen (.discardSends rest)

/-! ### The trampolines of libuv -/

def onSendDone (status : Int) (s : State) : Option Step :=
  match s.requests with
  | [] => none
  | number :: rest =>
    some (sendDone (decide (status = 0))
      (({ s with requests := rest }.setStatus status).resolve number (decide (status = 0))))

def onClosed (s : State) : Option Step :=
  if s.mBackend.mCloseRequested ∧ s.mBackend.mHandle then
    some ({ s with mBackend := { s.mBackend with mHandle := false } }, [])
  else none

end State

inductive Call where
  | sendTo (data : List UInt8) (ip : String) (port : UInt16)
  | send (data : List UInt8)
  | connectTo (ip : String) (port : UInt16)
  | disconnectRemote
  | bind (ip : String)
  | setBroadcast (enable : Bool)
  | close
  deriving DecidableEq, Repr

inductive Event where
  | onSendDone (status : Int)
  | onClosed
  deriving DecidableEq, Repr

variable (parses : String → Bool)

def call (s : State) : Call × Answer → Option Step
  | (.sendTo data ip port, answer) => s.sendTo parses answer data ip port
  | (.send data, answer) => s.send parses answer data
  | (.connectTo ip port, answer) => s.connectTo parses answer ip port
  | (.disconnectRemote, _) => s.disconnectRemote
  | (.bind ip, answer) => s.bind parses answer ip
  | (.setBroadcast enable, answer) => some (s.setBroadcast answer enable)
  | (.close, _) => some s.beginClose

def resume (s : State) (rest : Rest) (answer : Answer) : Step :=
  match rest with
  | .markBound after => s.markBound after
  | .proceed after => s.proceed parses answer after
  | .rejectSend number => s.rejectSend number
  | .popDone ok => s.popDone ok
  | .discardSends pending => s.discardSends pending

def event (s : State) : Event → Option Step
  | .onSendDone status => s.onSendDone status
  | .onClosed => s.onClosed

def program : Program State Rest (Call × Answer) Answer Event where
  init := {}
  call := call parses
  resume s rest answer := some (resume parses s rest answer)
  event := event

end CxxKit.UdpSocket
