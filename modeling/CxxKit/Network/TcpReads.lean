import CxxKit.Network.TcpConnects

/-!
The read events of a `TcpSocket`.

A terminal event is delivered by `read_event`, which then closes the socket; the
close latch and the backend's `begin_close` stop the reading before control is
back at the loop, where the next event of the transport would come from.
-/

namespace CxxKit.TcpSocket

open CxxKit.Network List Nat Option Reentrant State

variable {s : State} {r : Step} {todo : List (Frame Rest)} {parses : String → Bool}

/-- The part of the state that reading and closing depend on. -/
structure Flow where
  handle : Option Nat
  handles : Nat
  closing : List Nat
  armed : Bool
  onData : Bool
  latched : Bool
  backendLatched : Bool
  reads : List ReadEvent

def State.flow (s : State) : Flow where
  handle := s.mBackend.mHandle
  handles := s.uv.handles
  closing := s.uv.closing
  armed := s.mBackend.mReadArmed
  onData := s.mBackend.mOnData
  latched := s.mCloseRequested
  backendLatched := s.mBackend.mCloseRequested
  reads := s.reads

def Flow.live (f : Flow) : Bool :=
  match f.handle with
  | some handle => decide (handle ∉ f.closing)
  | none => false

def Flow.ended (f : Flow) : Bool := f.reads.any ReadEvent.isTerminal

/-- How many interrupted functions are on their way to what ends reading. -/
structure Ahead where
  /-- The socket's `begin_close`, on its way to the backend's `close`. -/
  closes : Nat := 0
  /-- The backend's `begin_close`, on its way to the handle. -/
  tearsDown : Nat := 0
  /-- `read_event`, on its way to the terminal event. -/
  terminates : Nat := 0
  /-- `read_event` after the terminal event, on its way to `begin_close`. -/
  closesAfter : Nat := 0
  /-- `on_read`, on its way to the backend's `begin_close`. -/
  closesBackend : Nat := 0

def Ahead.push (a : Ahead) : Frame Rest → Ahead
  | .rest .discardConnect | .rest (.backendClose _) => { a with closes := a.closes + 1 }
  | .rest (.discardWrites _) | .rest .closeHandle => { a with tearsDown := a.tearsDown + 1 }
  | .rest (.readTerminal _) => { a with terminates := a.terminates + 1 }
  | .rest .afterTerminal => { a with closesAfter := a.closesAfter + 1 }
  | .rest .backendBeginClose => { a with closesBackend := a.closesBackend + 1 }
  | _ => a

def ahead : List (Frame Rest) → Ahead
  | [] => {}
  | frame :: todo => (ahead todo).push frame

/-- How reading and closing depend on each other. -/
structure Flow.Kept (f : Flow) (a : Ahead) : Prop where
  /-- Handles are fresh, so a new one is not closing. -/
  fresh : ∀ handle ∈ f.closing, handle < f.handles
  made : ∀ handle, f.handle = some handle → handle < f.handles
  live : f.armed = true → f.live = true
  /-- The latch of the socket leads to the latch of the backend. -/
  closing : f.latched = true → 0 < a.closes ∨ f.backendLatched = true
  requested : 0 < a.closes → f.latched = true
  /-- The latch of the backend leads to the end of reading. -/
  stopped : f.backendLatched = true → 0 < a.tearsDown ∨ f.armed = false
  owned : f.backendLatched = true → f.latched = true
  begun : 0 < a.tearsDown ∨ f.closing ≠ [] → f.backendLatched = true
  fed : f.armed = true → f.onData = true ∨ 0 < a.terminates + a.closesAfter ∨ f.latched = true
  afterClose : 0 < a.closesBackend → f.latched = true
  single : a.terminates ≤ 1
  last : ∀ e ∈ f.reads.dropLast, e.isTerminal = false
  /-- A terminal event is followed by the latch, and none is on its way. -/
  final : f.ended = true → a.terminates = 0 ∧ (0 < a.closesAfter ∨ f.latched = true)

namespace Flow.Kept

variable {f : Flow} {a : Ahead}

section

variable (h : f.Kept a)

include h

/-- The socket's `begin_close` sets the latch; `read_event` is then done. -/
theorem latch : Kept { f with latched := true } { a with closes := a.closes + 1 } :=
  { h with
    closing := fun _ => .inl (succ_pos _)
    requested := fun _ => rfl
    owned := fun _ => rfl
    fed := fun _ => .inr (.inr rfl)
    afterClose := fun _ => rfl
    final := fun hended => ⟨(h.final hended).1, .inr rfl⟩ }

/-- A latched socket does not depend on what `read_event` and `on_read` go on to do. -/
theorem settle (hlatched : f.latched = true) (closesAfter closesBackend : Nat) :
    f.Kept { a with closesAfter := closesAfter, closesBackend := closesBackend } :=
  { h with
    fed := fun _ => .inr (.inr hlatched)
    afterClose := fun _ => hlatched
    final := fun hended => ⟨(h.final hended).1, .inr hlatched⟩ }

/-- The backend's `close`: its latch replaces the frame that leads to it. -/
theorem latchBackend (hlatched : f.latched = true) (closes : Nat) :
    Kept { f with backendLatched := true }
      { a with closes := closes, tearsDown := a.tearsDown + 1 } :=
  { h with
    closing := fun _ => .inr rfl
    requested := fun _ => hlatched
    stopped := fun _ => .inl (succ_pos _)
    owned := fun _ => hlatched
    begun := fun _ => rfl }

/-- A backend that is latched already does not need the frame. -/
theorem dropClose (hbackend : f.backendLatched = true) (closes : Nat) :
    f.Kept { a with closes := closes } :=
  { h with closing := fun _ => .inr hbackend, requested := fun _ => h.owned hbackend }

theorem disarm : Kept { f with armed := false } a :=
  { h with live := nofun, stopped := fun _ => .inr rfl, fed := nofun }

theorem arm (hlatched : f.latched = false) (hlive : f.live = true) :
    Kept { f with armed := true, onData := true } a :=
  { h with
    live := fun _ => hlive
    stopped := fun hbackend => by
      have hlatch := h.owned hbackend
      rw [hlatched] at hlatch
      cases hlatch
    fed := fun _ => .inl rfl }

theorem newHandle : Kept { f with handle := some f.handles, handles := f.handles + 1 } a :=
  { h with
    fresh := fun handle hmem => lt_succ_of_lt (h.fresh handle hmem)
    made := fun handle heq => by
      cases heq
      exact lt_succ_self _
    live := fun _ => by
      exact decide_eq_true fun hmem => Nat.lt_irrefl _ (h.fresh _ hmem) }

end

/-- The end of the backend's `begin_close`: reading is stopped and the handle is closing. -/
theorem closeHandle {handle : Nat} (h : f.Kept { a with tearsDown := a.tearsDown + 1 })
    (hhandle : f.handle = some handle) :
    Kept { f with
      armed := false, onData := false
      closing := if handle ∈ f.closing then f.closing else f.closing ++ [handle] } a := by
  have hbegun := h.begun (.inl (succ_pos _))
  refine { h with live := nofun, stopped := fun _ => .inr rfl, begun := fun _ => hbegun
                  fed := nofun, fresh := ?_ }
  split_ifs
  · exact h.fresh
  · exact forall_mem_append.mpr ⟨h.fresh, forall_mem_singleton.mpr (h.made handle hhandle)⟩

/-- Without a handle there is nothing to stop. -/
theorem closeNoHandle (h : f.Kept { a with tearsDown := a.tearsDown + 1 })
    (hhandle : f.handle = none) : f.Kept a := by
  have harmed : f.armed = false := by
    by_contra harmed
    have hlive := h.live (by simpa using harmed)
    rw [Flow.live, hhandle] at hlive
    cases hlive
  exact { h with
    stopped := fun _ => .inr harmed
    begun := fun _ => h.begun (.inl (succ_pos _)) }

/-- At rest, a socket that reads is not closing, and its backend has a data callback. -/
theorem reading (h : f.Kept {}) (harmed : f.armed = true) :
    f.latched = false ∧ f.onData = true ∧ f.ended = false := by
  have hbackend : f.backendLatched = false := by
    by_contra hbackend
    rcases h.stopped (by simpa using hbackend) with hpos | hstopped
    · exact absurd hpos (Nat.lt_irrefl 0)
    · rw [harmed] at hstopped
      cases hstopped
  have hlatched : f.latched = false := by
    by_contra hlatched
    rcases h.closing (by simpa using hlatched) with hpos | hlatch
    · exact absurd hpos (Nat.lt_irrefl 0)
    · rw [hbackend] at hlatch
      cases hlatch
  refine ⟨hlatched, ?_, ?_⟩
  · rcases h.fed harmed with hdata | hpos | hlatch
    · exact hdata
    · exact absurd hpos (Nat.lt_irrefl 0)
    · rw [hlatched] at hlatch
      cases hlatch
  · by_contra hended
    rcases (h.final (by simpa using hended)).2 with hpos | hlatch
    · exact absurd hpos (Nat.lt_irrefl 0)
    · rw [hlatched] at hlatch
      cases hlatch

/-- A read event goes behind events that are not terminal. -/
theorem last_append {e : ReadEvent} (hended : f.ended = false) :
    ∀ x ∈ (f.reads ++ [e]).dropLast, x.isTerminal = false := by
  intro x hx
  rw [dropLast_concat] at hx
  have hnone := any_eq_false.mp hended x hx
  simpa using hnone

theorem readData (h : f.Kept {}) (harmed : f.armed = true) (bytes : List UInt8) :
    Kept { f with reads := f.reads ++ [.data bytes] } {} := by
  obtain ⟨-, -, hended⟩ := h.reading harmed
  refine { h with last := last_append hended, final := fun hnew => ?_ }
  rw [ended, any_append] at hnew
  rw [ended] at hended
  rw [hended] at hnew
  cases hnew

/-- A failed read is reported; `read_event` is then on its way to the terminal event. -/
theorem readFailed (h : f.Kept {}) (harmed : f.armed = true) :
    Kept { f with onData := false } { terminates := 1 } := by
  obtain ⟨-, -, hended⟩ := h.reading harmed
  exact { h with
    fed := fun _ => .inr (.inl Nat.one_pos)
    single := Nat.le_refl 1
    final := fun hnew => nomatch hended.symm.trans hnew }

section

variable (h : f.Kept { a with terminates := a.terminates + 1 })
include h

theorem not_ended : f.ended = false := by
  by_contra hended
  exact absurd (h.final (by simpa using hended)).1 (succ_ne_zero _)

theorem readTerminal (nread : Int) : Kept { f with reads := f.reads ++ [.terminal nread] }
      { a with closesAfter := a.closesAfter + 1 } :=
  { h with
    fed := fun _ => .inr (.inl (by dsimp only; omega))
    single := by
      have hsingle := h.single
      dsimp only at hsingle ⊢
      omega
    last := last_append h.not_ended
    final := fun _ => ⟨by
      have hsingle := h.single
      dsimp only at hsingle ⊢
      omega, .inl (succ_pos _)⟩ }

/-- `read_event` without a data callback delivers nothing. -/
theorem skipTerminal : f.Kept { a with closesAfter := a.closesAfter + 1 } :=
  { h with
    fed := fun _ => .inr (.inl (by dsimp only; omega))
    single := by
      have hsingle := h.single
      dsimp only at hsingle ⊢
      omega
    final := fun hended => nomatch h.not_ended.symm.trans hended }

end

theorem released (h : f.Kept {}) (hclosing : f.closing ≠ []) :
    Kept { f with handle := none } {} := by
  have harmed : f.armed = false := by
    by_contra harmed
    have hreading := h.reading (by simpa using harmed)
    have hlatch := h.owned (h.begun (.inr hclosing))
    rw [hreading.1] at hlatch
    cases hlatch
  exact { h with
    made := nofun
    live := fun hnew => nomatch harmed.symm.trans hnew }

end Flow.Kept

/-- The invariant of a state and its control stack. -/
def ReadsKept (s : State) (todo : List (Frame Rest)) : Prop := s.flow.Kept (ahead todo)

/-! ### Functions reading does not depend on -/

/-- The function ends with the flow `f` and pushes no frame that the invariant looks at. -/
structure Unread (f : Flow) (r : Step) : Prop where
  flow : r.1.flow = f
  frames : ∀ todo, ahead (r.2 ++ todo) = ahead todo

theorem Unread.kept {f : Flow} (h : Unread f r) (hkept : f.Kept (ahead todo)) :
    r.Leaves ReadsKept todo := by
  unfold Outcome.Leaves ReadsKept
  rw [h.flow, h.frames]
  exact hkept

variable {f : Flow}

namespace State

theorem connectDone_unread {ok : Bool} (h : s.flow = f) : Unread f (s.connectDone ok) := by
  subst h
  unfold connectDone
  split_ifs <;> exact ⟨rfl, fun _ => rfl⟩

theorem notifyClosed_unread (h : s.flow = f) : Unread f s.notifyClosed := by
  subst h
  unfold notifyClosed closeDone
  split_ifs <;> exact ⟨rfl, fun _ => rfl⟩

theorem submitNextWrite_unread {rc : Int} (h : s.flow = f) : Unread f (s.submitNextWrite rc) := by
  subst h
  unfold submitNextWrite
  split
  · exact ⟨rfl, fun _ => rfl⟩
  · split
    · exact ⟨rfl, fun _ => rfl⟩
    · split_ifs <;> exact ⟨rfl, fun _ => rfl⟩

/-! ### Functions reading depends on -/

theorem beginClose_reads (h : ReadsKept s todo) : s.beginClose.Leaves ReadsKept todo := by
  unfold beginClose
  split_ifs
  · exact h
  · exact h.latch
  · exact h.latch

theorem backendBeginClose_reads (closes : Nat) (hlatched : s.mCloseRequested = true)
    (h : s.flow.Kept { ahead todo with closes := closes }) :
    s.backendBeginClose.Leaves ReadsKept todo := by
  unfold backendBeginClose
  split_ifs with hbackend
  · exact h.dropClose hbackend (ahead todo).closes
  · exact h.latchBackend hlatched (ahead todo).closes

theorem afterTerminal_reads (h : ReadsKept s (.rest .afterTerminal :: todo)) :
    s.afterTerminal.Leaves ReadsKept todo := by
  have hdisarmed : s.backendReadStop.flow.Kept (ahead (.rest .afterTerminal :: todo)) := h.disarm
  unfold afterTerminal beginClose
  split_ifs with hlatched
  · exact hdisarmed.settle hlatched (ahead todo).closesAfter ((ahead todo).closesBackend + 1)
  · exact hdisarmed.latch.settle rfl (ahead todo).closesAfter ((ahead todo).closesBackend + 1)
  · exact hdisarmed.latch.settle rfl (ahead todo).closesAfter ((ahead todo).closesBackend + 1)

theorem afterConnect_reads {ok : Bool} (h : ReadsKept s todo) :
    (s.afterConnect ok).Leaves ReadsKept todo := by
  unfold afterConnect beginClose
  split_ifs
  · exact h
  · exact h.latch
  · exact h.latch
  · exact h

theorem closeHandle_reads (h : ReadsKept s (.rest .closeHandle :: todo)) :
    s.closeHandle.Leaves ReadsKept todo := by
  unfold closeHandle
  split
  next hhandle => exact (notifyClosed_unread rfl).kept (Flow.Kept.closeNoHandle h hhandle)
  next handle hhandle => exact Flow.Kept.closeHandle h hhandle

/-- The discarding loop and the connect that is discarded after it lead to the handle. -/
theorem discardWrites_reads {discards : List PendingWrite}
    (h : ReadsKept s (.rest (.discardWrites discards) :: todo)) :
    (s.discardWrites discards).Leaves ReadsKept todo := by
  cases discards with
  | cons w rest => exact h
  | nil =>
    unfold discardWrites backendDiscardConnect
    split_ifs
    · rw [Outcome.leaves_andThen]
      exact (connectDone_unread rfl).kept h
    · exact h

theorem backendConnect_reads {ip : String} {rc : Int} (h : ReadsKept s todo) :
    (s.backendConnect parses ip rc).Leaves ReadsKept todo := by
  unfold backendConnect
  split_ifs
  · exact (connectDone_unread rfl).kept h
  · exact (connectDone_unread rfl).kept h.newHandle
  · exact h.newHandle

theorem readTerminal_reads {nread : Int} (h : ReadsKept s (.rest (.readTerminal nread) :: todo)) :
    (s.readTerminal nread).Leaves ReadsKept todo := by
  unfold readTerminal
  split_ifs
  · exact Flow.Kept.readTerminal h nread
  · exact Flow.Kept.skipTerminal h

theorem readStart_reads (h : ReadsKept s todo) (hstart : s.readStart = some r) :
    r.Leaves ReadsKept todo := by
  unfold readStart at hstart
  split_ifs at hstart with haccepted
  cases hstart
  obtain ⟨hlatched, -, hlive⟩ := haccepted
  exact h.arm hlatched (hlive.elim h.live id)

end State

/-! ### Every run -/

theorem resume_reads {rest : Rest} {rc : Int} (h : ReadsKept s (.rest rest :: todo)) :
    (resume parses s rest rc).Leaves ReadsKept todo := by
  cases rest with
  | backendConnect ip port => exact backendConnect_reads h
  | failConnecting ok =>
    refine Unread.kept ?_ h
    change Unread s.flow (s.failConnecting ok)
    unfold failConnecting
    split_ifs <;> exact ⟨rfl, fun _ => rfl⟩
  | deliverConnect ok =>
    refine Unread.kept ?_ h
    change Unread s.flow (s.deliverConnect ok)
    unfold deliverConnect
    split <;> exact ⟨rfl, fun _ => rfl⟩
  | afterConnect ok => exact afterConnect_reads h
  | resetIdle =>
    refine Unread.kept ?_ h
    change Unread s.flow s.resetIdle
    unfold resetIdle
    split_ifs <;> exact ⟨rfl, fun _ => rfl⟩
  | discardConnect =>
    change s.discardConnect.Leaves ReadsKept todo
    unfold discardConnect
    split <;> exact h
  | backendClose notify =>
    exact backendBeginClose_reads ((ahead todo).closes + 1)
      (h.requested (succ_pos _)) h
  | discardWrites discards => exact discardWrites_reads h
  | closeHandle => exact closeHandle_reads h
  | submitNextWrite => exact (submitNextWrite_unread rfl).kept h
  | readTerminal nread => exact readTerminal_reads h
  | afterTerminal => exact afterTerminal_reads h
  | backendBeginClose =>
    have hlatched := h.afterClose (succ_pos _)
    exact backendBeginClose_reads (ahead todo).closes hlatched
      (h.settle hlatched (ahead todo).closesAfter (ahead todo).closesBackend)

theorem call_reads {a : Call} (h : ReadsKept s todo) (hcall : call s a = some r) :
    r.Leaves ReadsKept todo := by
  cases a with
  | connect ip port =>
    change s.connect ip port = some r at hcall
    unfold connect at hcall
    split_ifs at hcall
    cases hcall
    exact h
  | write data rc =>
    change s.write data rc = some r at hcall
    unfold write at hcall
    dsimp only at hcall
    split_ifs at hcall
    · cases hcall
      exact h
    · cases hcall
      exact (submitNextWrite_unread rfl).kept h
  | readStart => exact readStart_reads h hcall
  | readStop =>
    cases hcall
    exact h.disarm
  | close =>
    cases hcall
    exact beginClose_reads h

theorem event_reads {e : Event} (h : ReadsKept s []) (hevent : event s e = some r) :
    ReadsKept r.1 r.2 := by
  have hover : ∀ {r' : Step} {f : Flow}, Unread f r' → f.Kept {} → ReadsKept r'.1 r'.2 := by
    intro r' f hunread hkept
    have hover : r'.Leaves ReadsKept [] := hunread.kept hkept
    rwa [Outcome.Leaves, append_nil] at hover
  cases e with
  | onConnectDone req status =>
    obtain ⟨-, heq⟩ := ite_none_right_eq_some.mp hevent
    cases heq
    split
    · exact hover (connectDone_unread rfl) h
    · exact h
  | onWriteDone req status =>
    obtain ⟨-, heq⟩ := ite_none_right_eq_some.mp hevent
    cases heq
    split <;> exact h
  | onRead bytes =>
    change s.onRead bytes = some r at hevent
    unfold onRead readData at hevent
    split_ifs at hevent with harmed <;> cases hevent
    · exact h
    · exact h.readData harmed.1 bytes
    · exact h
    · exact h
  | onReadFailed nread =>
    obtain ⟨henabled, heq⟩ := ite_none_right_eq_some.mp hevent
    cases heq
    obtain ⟨-, honData, -⟩ := h.reading henabled.1
    rw [if_pos (show s.mBackend.mOnData = true from honData)]
    exact h.readFailed henabled.1
  | onClosed handle =>
    obtain ⟨henabled, heq⟩ := ite_none_right_eq_some.mp hevent
    cases heq
    exact hover (notifyClosed_unread rfl)
      (h.released (ne_nil_of_mem henabled.1))

theorem keeps_reads (parses : String → Bool) (adopted : Bool) :
    (program parses adopted).Keeps ReadsKept where
  call _ _ _ _ h hcall := call_reads h hcall
  ret _ _ h := h
  resume s rest todo rc r h hresume := by
    cases hresume
    exact resume_reads h
  event _ _ _ h hevent := event_reads h hevent

theorem initial_reads (adopted : Bool) : ReadsKept (initial adopted) [] := by
  cases adopted <;>
    constructor <;> simp [initial, flow, ahead, Flow.ended]

/-! ### What the callbacks of `connect` and `read_start` are promised -/

/-- No callback of a `connect` is invoked twice, and a terminal read event is the last read
event; when no function is running and libuv has completed every connect request, the callback
of each accepted `connect` has been invoked once. -/
structure CallbacksSettled (c : Config State Rest) : Prop where
  once : ∀ n, (c.store.connected.map Prod.fst).count n ≤ 1
  done : c.todo = [] → c.store.uv.connecting = [] →
    ∀ n < c.store.connects, (c.store.connected.map Prod.fst).count n = 1
  last : ∀ e ∈ c.store.reads.dropLast, e.isTerminal = false

theorem ConnectsKept.once (h : ConnectsKept s todo) (n : Nat) :
    (s.connected.map Prod.fst).count n ≤ 1 := by
  have hplaced := h.placed n
  split at hplaced <;> omega

theorem ConnectsKept.done (h : ConnectsKept s []) (hconnecting : s.uv.connecting = []) {n : Nat}
    (hn : n < s.connects) : (s.connected.map Prod.fst).count n = 1 := by
  have hnone : s.mOnConnect = none := by
    by_contra hset
    rcases h.attended hset with hany | hrequest
    · cases hany
    · exact hrequest.2 hconnecting
  have hplaced := h.placed n
  rw [hnone, if_pos hn] at hplaced
  simpa using hplaced

/-- **Callbacks are settled**, in every order of transport completions, closes and calls made from
callbacks: the callback of a connect is taken out of its field before it is invoked, and the data
callback is dropped with the terminal event. -/
theorem callbacks_settled (parses : String → Bool) (adopted : Bool)
    (run : List (Label Call Int Event)) :
    (program parses adopted).machine.Always CallbacksSettled
      (program parses adopted).machine.init run := by
  have hconnects := (keeps_connects parses adopted).always (initial_connects adopted) run
  have hreads := (keeps_reads parses adopted).always (initial_reads adopted) run
  refine (hconnects.and hreads).mono ?_
  rintro ⟨s, todo⟩ ⟨hconnect, hread⟩
  refine ⟨hconnect.once, ?_, hread.last⟩
  rintro rfl hconnecting n hn
  exact ConnectsKept.done hconnect hconnecting hn

/-- **Reading stops.** When no function is running, a socket whose transport reads has a live
handle and a callback, was not told to close and has had no terminal event. -/
theorem reading_at_rest (parses : String → Bool) (adopted : Bool)
    (run : List (Label Call Int Event)) :
    (program parses adopted).machine.Always
      (fun c => c.todo = [] → c.store.flow.armed = true → c.store.flow.live = true ∧
        c.store.flow.latched = false ∧ c.store.flow.onData = true ∧ c.store.flow.ended = false)
      (program parses adopted).machine.init run := by
  refine ((keeps_reads parses adopted).always (initial_reads adopted) run).mono ?_
  rintro ⟨s, _⟩ hread rfl harmed
  exact ⟨Flow.Kept.live hread harmed, Flow.Kept.reading hread harmed⟩

end CxxKit.TcpSocket
