import CxxKit.Network.TcpReads

/-!
Connecting again after a failed `connect`.

The lifecycle documentation promises that a socket whose connect failed is back
in its constructed state and may connect again.  The teardown of a failed attempt
goes through `begin_close`, whose latch is never reset, and `connect` checks the
latch: a socket accepts one `connect` in its life.
-/

namespace CxxKit.TcpSocket

open CxxKit.Network List Option Reentrant State Transition

variable {s : State} {r : Step} {todo : List (Frame Rest)} {parses : String → Bool}
  {c : Config State Rest} {rc : Int} {k : Frame Rest}

def keepsOpen : Label Call Int Event → Bool
  | .call .close => false
  | _ => true

/-- A socket as constructed, whose user never calls `close`. -/
def openMachine (parses : String → Bool) : Machine (Config State Rest) (Label Call Int Event) :=
  (program parses false).machine.restrict keepsOpen

/-- An attempt to connect has failed, and its teardown is complete. -/
def TornDown (c : Config State Rest) : Prop :=
  c.todo = [] ∧ c.store.mBackend.mHandle = none ∧ ∃ n, (n, false) ∈ c.store.connected

/-- After a failed attempt the socket is idle and accepts the next `connect`. -/
def Retryable (c : Config State Rest) : Prop :=
  TornDown c → c.store.mState = .kIdle ∧ ∀ ip port, (c.store.connect ip port).isSome

/-- The step is no failure of an attempt: the address parses, `uv_tcp_connect` accepts the
request, and the request completes with status zero. -/
def Succeeds (parses : String → Bool) (c : Config State Rest) : Label Call Int Event → Prop
  | .resume rc => ∀ ip port todo, c.todo = .rest (.backendConnect ip port) :: todo →
      parses ip = true ∧ rc = 0
  | .event (.onConnectDone _ status) => status = 0
  | _ => True

/-! ### A torn down socket is spent -/

theorem ConnectsKept.not_retryable (h : ConnectsKept c.store c.todo) (htorn : TornDown c) :
    ¬ Retryable c := by
  intro hretryable
  obtain ⟨hidle, haccepts⟩ := hretryable htorn
  obtain ⟨-, -, n, hn⟩ := htorn
  have hconnects : c.store.connects ≠ 0 := by
    have hcount : 0 < (c.store.connected.map Prod.fst).count n :=
      count_pos_iff.mpr (mem_map_of_mem hn)
    have hplaced := h.placed n
    intro hzero
    rw [hzero, if_neg (Nat.not_lt_zero n)] at hplaced
    omega
  have hlatched := h.spent hconnects hidle
  have hsome := haccepts "" 0
  rw [connect, if_neg (by simp [hlatched])] at hsome
  cases hsome

/-! ### Attempts that succeed -/

/-- A frame that is not part of a failed attempt. -/
def succeeds : Frame Rest → Bool
  | .rest (.backendConnect _ _) | .rest (.failConnecting _) | .rest (.deliverConnect false)
  | .rest (.afterConnect false) | .rest .resetIdle => false
  | _ => true

/-- The attempt has succeeded; its callback is invoked before anything closes the socket. -/
structure Online (s : State) (todo : List (Frame Rest)) : Prop where
  connects : s.connects ≠ 0
  connected : ∀ p ∈ s.connected, p.2 = true
  backend : s.mBackend.mOnConnect = false
  connecting : s.uv.connecting = []
  frames : todo.all succeeds = true
  latched : s.mCloseRequested = true → s.mOnConnect = none
  reading : 0 < (ahead todo).terminates + (ahead todo).closesAfter → s.mOnConnect = none

theorem Online.tail_frames (h : Online s (k :: todo)) : todo.all succeeds = true := by
  have hframes := h.frames
  rw [all_cons, Bool.and_eq_true] at hframes
  exact hframes.2

theorem Online.pop (h : Online s (k :: todo))
    (hahead : (ahead (k :: todo)).terminates + (ahead (k :: todo)).closesAfter
      = (ahead todo).terminates + (ahead todo).closesAfter) : Online s todo :=
  { h with frames := h.tail_frames, reading := hahead ▸ h.reading }

section

variable (h : Online s todo)
include h

theorem State.submitNextWrite_online : (s.submitNextWrite rc).Leaves Online todo := by
  unfold submitNextWrite
  split
  · exact h
  · split
    · exact h
    · split_ifs <;> exact { h with }

theorem State.backendBeginClose_online : s.backendBeginClose.Leaves Online todo := by
  unfold backendBeginClose
  split_ifs
  · exact h
  · exact { h with }

/-- What closes an online socket is a failed read, which finds the callback invoked. -/
theorem State.beginClose_online (hnone : s.mOnConnect = none) :
    s.beginClose.Leaves Online todo := by
  unfold beginClose
  split_ifs
  · exact h
  · exact { h with latched := fun _ => hnone }
  · exact { h with latched := fun _ => hnone }

omit h in
theorem Online.resume {rest : Rest} (h : Online s (.rest rest :: todo))
    (hreads : ReadsKept s (.rest rest :: todo)) : (resume parses s rest rc).Leaves Online todo := by
  have hhead : succeeds (.rest rest) = true := by
    have hframes := h.frames
    rw [all_cons, Bool.and_eq_true] at hframes
    exact hframes.1
  cases rest with
  | backendConnect ip port | failConnecting ok | resetIdle => cases hhead
  | deliverConnect ok =>
    cases ok with
    | false => cases hhead
    | true =>
      have hpop := h.pop rfl
      change (s.deliverConnect true).Leaves Online todo
      unfold deliverConnect
      split
      · refine { hpop with connected := ?_, latched := fun _ => rfl, reading := fun _ => rfl }
        exact forall_mem_append.mpr ⟨h.connected, forall_mem_singleton.mpr rfl⟩
      · exact { hpop with }
  | afterConnect ok =>
    cases ok with
    | false => cases hhead
    | true => exact h.pop rfl
  | discardConnect =>
    have hnone := h.latched (hreads.requested (Nat.succ_pos _))
    change s.discardConnect.Leaves Online todo
    unfold discardConnect
    rw [hnone]
    exact { h.pop rfl with }
  | backendClose notify =>
    exact backendBeginClose_online { h.pop rfl with }
  | discardWrites discards =>
    cases discards with
    | nil =>
      change s.backendDiscardConnect.Leaves Online todo
      rw [backendDiscardConnect, if_neg (by simp [h.backend])]
      exact { h.pop rfl with }
    | cons w rest => exact { h.pop rfl with }
  | closeHandle =>
    have hpop := h.pop rfl
    change s.closeHandle.Leaves Online todo
    unfold closeHandle notifyClosed closeDone
    split
    · split_ifs <;> exact { hpop with }
    · exact { hpop with }
  | submitNextWrite => exact submitNextWrite_online (h.pop rfl)
  | readTerminal nread =>
    have hnone := h.reading (by simp only [ahead, Ahead.push]; omega)
    change (s.readTerminal nread).Leaves Online todo
    unfold readTerminal
    split_ifs <;> exact { h with reading := fun _ => hnone }
  | afterTerminal =>
    have hnone := h.reading (by simp only [ahead, Ahead.push]; omega)
    have hstopped : Online s.backendReadStop (.rest .backendBeginClose :: todo) :=
      { h with frames := h.tail_frames, reading := fun _ => hnone }
    change s.afterTerminal.Leaves Online todo
    rw [afterTerminal, Outcome.leaves_andThen]
    exact beginClose_online hstopped hnone
  | backendBeginClose => exact backendBeginClose_online (h.pop rfl)

theorem Online.call {a : Call} (hconnects : ConnectsKept s todo) (hopen : a ≠ .close)
    (hcall : call s a = some r) : r.Leaves Online todo := by
  cases a with
  | connect ip port =>
    change s.connect ip port = some r at hcall
    unfold connect at hcall
    split_ifs at hcall with haccepted
    have hlatch := hconnects.spent h.connects haccepted.1
    rw [haccepted.2] at hlatch
    cases hlatch
  | write data rc =>
    change s.write data rc = some r at hcall
    unfold write at hcall
    dsimp only at hcall
    split_ifs at hcall
    · cases hcall
      exact { h with }
    · cases hcall
      exact submitNextWrite_online { h with }
  | readStart =>
    change s.readStart = some r at hcall
    unfold readStart at hcall
    split_ifs at hcall
    cases hcall
    exact { h with }
  | readStop =>
    cases hcall
    exact { h with }
  | close => exact absurd rfl hopen

end

theorem Online.event {e : Event} (h : Online s []) (hconnects : ConnectsKept s [])
    (hevent : event s e = some r) : Online r.1 r.2 := by
  cases e with
  | onConnectDone req status =>
    change s.onConnectDone req status = some r at hevent
    rw [onConnectDone, if_neg (by simp [h.connecting])] at hevent
    cases hevent
  | onWriteDone req status =>
    obtain ⟨-, heq⟩ := ite_none_right_eq_some.mp hevent
    cases heq
    split <;> exact { h with }
  | onRead bytes =>
    change s.onRead bytes = some r at hevent
    unfold onRead readData at hevent
    split_ifs at hevent <;> cases hevent <;> exact { h with }
  | onReadFailed nread =>
    obtain ⟨-, heq⟩ := ite_none_right_eq_some.mp hevent
    cases heq
    have hnone : s.mOnConnect = none := by
      by_contra hset
      rcases hconnects.attended hset with hany | hrequest
      · cases hany
      · rw [h.backend] at hrequest
        cases hrequest.1
    split
    · exact { h with reading := fun _ => hnone }
    · rw [← append_nil (Prod.snd _)]
      exact backendBeginClose_online { h with }
  | onClosed handle =>
    change s.onClosed handle = some r at hevent
    unfold onClosed notifyClosed closeDone at hevent
    split at hevent
    case isFalse => cases hevent
    cases hevent
    split_ifs <;> exact { h with }

/-! ### From the constructed socket -/

/-- Between `connect` and the call of the backend. -/
def dialled : State :=
  { mState := .kConnecting, reported := [.kConnecting], mOnConnect := some 0, connects := 1 }

/-- The connect request is with libuv. -/
def waiting : State :=
  { dialled with
    mBackend := { mHandle := some 0, mConnectReq := some 0, mOnConnect := true }
    uv := { handles := 1, requests := 1, connecting := [0] } }

/-- Up to its connection a socket whose attempt succeeds is in one of these states. -/
inductive Dialling : State → List (Frame Rest) → Prop
  | fresh : Dialling {} []
  | called (ip : String) (port : UInt16) :
      Dialling dialled [.callback, .rest (.backendConnect ip port)]
  | returned (ip : String) (port : UInt16) :
      Dialling dialled [.rest (.backendConnect ip port)]
  | waiting : Dialling waiting []
  | online (s : State) (todo : List (Frame Rest)) (h : Online s todo) : Dialling s todo

theorem Dialling.call {a : Call} (h : Dialling s todo) (hconnects : ConnectsKept s todo)
    (hopen : a ≠ .close) (hcall : call s a = some r) : r.Leaves Dialling todo := by
  cases h with
  | online s todo h => exact .online _ _ (h.call hconnects hopen hcall)
  | fresh =>
    cases a with
    | connect ip port =>
      cases hcall
      exact .called ip port
    | readStop =>
      cases hcall
      exact .fresh
    | close => exact absurd rfl hopen
    | write data rc | readStart => cases hcall
  | called ip port =>
    cases a with
    | readStop =>
      cases hcall
      exact .called ip port
    | close => exact absurd rfl hopen
    | connect ip port | write data rc | readStart => cases hcall
  | returned ip port =>
    cases a with
    | readStop =>
      cases hcall
      exact .returned ip port
    | close => exact absurd rfl hopen
    | connect ip port | write data rc | readStart => cases hcall
  | waiting =>
    cases a with
    | readStop =>
      cases hcall
      exact .waiting
    | close => exact absurd rfl hopen
    | connect ip port | write data rc | readStart => cases hcall

theorem Dialling.resume {rest : Rest} (h : Dialling s (.rest rest :: todo))
    (hreads : ReadsKept s (.rest rest :: todo))
    (hsucceeds : ∀ ip port, rest = .backendConnect ip port → parses ip = true ∧ rc = 0) :
    (resume parses s rest rc).Leaves Dialling todo := by
  cases h with
  | online s todo h => exact .online _ _ (h.resume hreads)
  | returned ip port =>
    obtain ⟨hparses, rfl⟩ := hsucceeds ip port rfl
    have hwaiting : TcpSocket.resume parses dialled (.backendConnect ip port) 0
        = (TcpSocket.waiting, []) := by
      simp [TcpSocket.resume, backendConnect, hparses, TcpSocket.waiting, dialled]
    rw [hwaiting]
    exact .waiting

theorem Dialling.event {e : Event} (h : Dialling s []) (hconnects : ConnectsKept s [])
    (hsucceeds : ∀ req status, e = .onConnectDone req status → status = 0)
    (hevent : event s e = some r) : Dialling r.1 r.2 := by
  cases h with
  | online s todo h => exact .online _ _ (h.event hconnects hevent)
  | fresh => cases e <;> cases hevent
  | waiting =>
    cases e with
    | onConnectDone req status =>
      obtain rfl := hsucceeds req status rfl
      change TcpSocket.waiting.onConnectDone req 0 = some r at hevent
      unfold onConnectDone at hevent
      split at hevent
      case isFalse => cases hevent
      rename_i hreq
      obtain rfl : req = 0 := by simpa [TcpSocket.waiting] using hreq
      cases hevent
      exact .online _ _ ⟨Nat.one_ne_zero, nofun, rfl, rfl, rfl, nofun, nofun⟩
    | onWriteDone req status | onRead bytes | onReadFailed nread | onClosed handle => cases hevent

/-- In a run whose attempts succeed no attempt has failed. -/
theorem Dialling.not_tornDown (h : Dialling c.store c.todo) : ¬ TornDown c := by
  obtain ⟨s, todo⟩ := c
  rintro ⟨-, -, n, hn⟩
  cases h with
  | online s todo h => cases h.connected _ hn
  | fresh | called | returned | waiting => cases hn

/-! ### When a socket can be connected again -/

theorem openMachine_keeps {I : State → List (Frame Rest) → Prop}
    (h : (program parses false).Keeps I) (hinit : I {} []) (run : List (Label Call Int Event)) :
    (openMachine parses).Always (fun c => I c.store c.todo) (openMachine parses).init run := by
  refine Machine.always_of_step (I := fun c : Config State Rest => I c.store c.todo) ?_ hinit run
  intro c a d hc hstep
  exact h.step hc (Machine.restrict_step.mp hstep).2

/-- **No socket connects twice.** In a run without calls of `close`, the promise of the
documentation is kept exactly as long as no attempt has failed and been torn down; a run whose
attempts all succeed keeps it. -/
theorem retryable_iff_never_torn_down (parses : String → Bool) (run : List (Label Call Int Event)) :
    ((openMachine parses).Always Retryable (openMachine parses).init run ↔
      (openMachine parses).Always (fun c => ¬ TornDown c) (openMachine parses).init run)
    ∧ ((openMachine parses).Meets (Succeeds parses) (openMachine parses).init run →
      (openMachine parses).Always Retryable (openMachine parses).init run) := by
  have hconnects := openMachine_keeps (keeps_connects parses false) (initial_connects false) run
  refine ⟨⟨fun h => ?_, fun h => ?_⟩, fun hmeets => ?_⟩
  · refine (h.and hconnects).mono ?_
    rintro c ⟨hretryable, hkept⟩ htorn
    exact hkept.not_retryable htorn hretryable
  · exact h.mono fun c hnot htorn => absurd htorn hnot
  · have hdialling := Machine.always_of_meets
      (I := fun c => (Dialling c.store c.todo ∧ ConnectsKept c.store c.todo)
        ∧ ReadsKept c.store c.todo) ?_
      ⟨⟨.fresh, initial_connects false⟩, initial_reads false⟩ hmeets
    · exact hdialling.mono fun c hc htorn => absurd htorn hc.1.1.not_tornDown
    · rintro c a d ⟨⟨hd, hc⟩, hr⟩ hsucceeds hstep
      obtain ⟨hopen, hstep⟩ := Machine.restrict_step.mp hstep
      refine ⟨⟨?_, (keeps_connects parses false).step hc hstep⟩, ?_⟩
      case refine_2 => exact (keeps_reads parses false).step hr hstep
      cases Program.step_effect hstep with
      | call s todo a r _ hcall =>
        refine hd.call hc ?_ hcall
        rintro rfl
        cases hopen
      | ret s todo =>
        cases hd with
        | called ip port => exact .returned ip port
        | online s todo h => exact .online _ _ (h.pop rfl)
      | resume s rest todo rc r hresume =>
        cases hresume
        refine hd.resume hr ?_
        rintro ip port rfl
        exact hsucceeds ip port todo rfl
      | event s e r hevent =>
        refine hd.event hc ?_ hevent
        rintro req status rfl
        exact hsucceeds

/-- A socket that connects and is told so. -/
theorem retryable_one_connect :
    (openMachine fun _ => true).Always Retryable (openMachine fun _ => true).init
      [.call (.connect "127.0.0.1" 80), .ret, .resume 0, .event (.onConnectDone 0 0), .ret,
        .resume 0, .ret] := by
  refine (retryable_iff_never_torn_down (fun _ => true) _).2 ?_
  rintro c₁ ⟨⟩
  refine ⟨trivial, ?_⟩
  rintro c₂ ⟨⟩
  refine ⟨trivial, ?_⟩
  rintro c₃ ⟨⟩
  refine ⟨fun _ _ _ _ => ⟨rfl, rfl⟩, ?_⟩
  rintro c₄ ⟨⟩
  refine ⟨rfl, ?_⟩
  rintro c₅ ⟨⟩
  refine ⟨trivial, ?_⟩
  rintro c₆ ⟨⟩
  refine ⟨nofun, ?_⟩
  rintro c₇ ⟨⟩
  exact ⟨trivial, trivial⟩

/-- A refused connect: the request completes with `ECONNREFUSED`, the callbacks return, and the
close callback of the handle runs. -/
def refusedConnect : List (Label Call Int Event) :=
  [.call (.connect "127.0.0.1" 80), .ret, .resume 0, .event (.onConnectDone 0 uvEconnrefused),
    .ret, .resume 0, .ret, .resume 0, .ret, .resume 0, .ret, .resume 0, .resume 0, .resume 0,
    .resume 0, .resume 0, .ret, .event (.onClosed 0)]

/-- The socket is idle and without a handle, and does not accept another `connect`. -/
theorem refused_connect_not_retryable : ∃ c : Config State Rest,
    (openMachine fun _ => true).run (openMachine fun _ => true).init refusedConnect = some c
      ∧ c.store.mState = .kIdle ∧ ¬ Retryable c := by
  refine ⟨_, rfl, rfl, fun h => ?_⟩
  have haccepts := (h ⟨rfl, rfl, 0, mem_singleton.mpr rfl⟩).2 "127.0.0.1" 80
  exact absurd haccepts (by decide)

end CxxKit.TcpSocket
