import CxxKit.Network.TcpReads

/-!
The handle of a `TcpSocket`.

`uv_close` is called for the handle the backend has when its `begin_close` ends,
and the backend's latch lets that happen once.  A socket that is closed in the
callback of its `kConnecting` closes a backend that has no handle yet; `connect`
then goes on to make one, which nothing closes any more.
-/

namespace CxxKit.TcpSocket

open CxxKit.Network List Option Reentrant State Transition

variable {s : State} {r : Step} {todo : List (Frame Rest)} {parses : String → Bool}

/-- No handle is passed to `uv_close` twice; when no function is running and the socket has
been closed, the backend has no handle that is not passed to `uv_close`. -/
structure HandlesSettled (c : Config State Rest) : Prop where
  once : c.store.uv.closing.Nodup
  requested : c.todo = [] → c.store.mCloseRequested = true →
    ∀ handle, c.store.mBackend.mHandle = some handle → handle ∈ c.store.uv.closing

/-- The backend's `connect` does not make a handle for a socket that is closed. -/
def Undisturbed (parses : String → Bool) (c : Config State Rest) : Label Call Int Event → Prop
  | .resume _ => ∀ ip port todo, c.todo = .rest (.backendConnect ip port) :: todo →
      parses ip = true → c.store.mCloseRequested = false
  | _ => True

/-- The handle of a latched backend is closing, or `begin_close` is on its way to it. -/
def Torn (handle : Option Nat) (closing : List Nat) (latched : Bool) (tearsDown : Nat) : Prop :=
  closing.Nodup ∧ (latched = true → ∀ n, handle = some n → 0 < tearsDown ∨ n ∈ closing)

def HandlesKept (s : State) (todo : List (Frame Rest)) : Prop :=
  Torn s.mBackend.mHandle s.uv.closing s.mBackend.mCloseRequested (ahead todo).tearsDown

theorem Unread.handles {f : Flow} (h : Unread f r)
    (htorn : Torn f.handle f.closing f.backendLatched (ahead todo).tearsDown) :
    r.Leaves HandlesKept todo := by
  obtain ⟨rfl, hframes⟩ := h
  unfold Outcome.Leaves HandlesKept
  rw [hframes]
  exact htorn

namespace State

theorem backendBeginClose_handles (h : HandlesKept s todo) :
    s.backendBeginClose.Leaves HandlesKept todo := by
  unfold backendBeginClose
  split_ifs
  · exact h
  · exact ⟨h.1, fun _ _ _ => .inl (Nat.succ_pos _)⟩

theorem beginClose_handles (h : HandlesKept s todo) : s.beginClose.Leaves HandlesKept todo := by
  unfold beginClose
  split_ifs <;> exact h

theorem closeHandle_handles (h : HandlesKept s (.rest .closeHandle :: todo)) :
    s.closeHandle.Leaves HandlesKept todo := by
  unfold closeHandle
  split
  next hnone =>
    refine (notifyClosed_unread rfl).handles ⟨h.1, fun _ n hn => ?_⟩
    cases hnone.symm.trans hn
  next handle hsome =>
    have hclosing : ∀ n, s.mBackend.mHandle = some n → n = handle :=
      fun n hn => some.inj (hn.symm.trans hsome)
    split_ifs with hmem
    · exact ⟨h.1, fun _ n hn => .inr (hclosing n hn ▸ hmem)⟩
    · refine ⟨nodup_append.mpr ⟨h.1, pairwise_singleton _ _, ?_⟩, fun _ n hn => .inr ?_⟩
      · intro x hx y hy
        rw [mem_singleton.mp hy]
        exact fun heq => hmem (heq ▸ hx)
      · exact mem_append_right _ (mem_singleton.mpr (hclosing n hn))

theorem discardWrites_handles {discards : List PendingWrite}
    (h : HandlesKept s (.rest (.discardWrites discards) :: todo)) :
    (s.discardWrites discards).Leaves HandlesKept todo := by
  cases discards with
  | cons w rest => exact h
  | nil =>
    unfold discardWrites backendDiscardConnect
    split_ifs
    · rw [Outcome.leaves_andThen]
      exact (connectDone_unread rfl).handles h
    · exact h

/-- A new handle is not lost as long as the backend is not latched. -/
theorem backendConnect_handles {ip : String} {rc : Int} (h : HandlesKept s todo)
    (hopen : parses ip = true → s.mBackend.mCloseRequested = false) :
    (s.backendConnect parses ip rc).Leaves HandlesKept todo := by
  have hnew : parses ip ≠ false → Torn (some s.uv.handles) s.uv.closing
      s.mBackend.mCloseRequested (ahead todo).tearsDown := fun hparses =>
    ⟨h.1, fun hlatched => nomatch (hopen (eq_true_of_ne_false hparses)).symm.trans hlatched⟩
  unfold backendConnect
  split_ifs with hparses
  · exact (connectDone_unread rfl).handles h
  · exact (connectDone_unread rfl).handles (hnew hparses)
  · exact hnew hparses

end State

theorem resume_handles {rest : Rest} {rc : Int} (h : HandlesKept s (.rest rest :: todo))
    (hopen : ∀ ip port, rest = .backendConnect ip port → parses ip = true →
      s.mBackend.mCloseRequested = false) :
    (resume parses s rest rc).Leaves HandlesKept todo := by
  cases rest with
  | backendConnect ip port => exact backendConnect_handles h (hopen ip port rfl)
  | failConnecting ok | deliverConnect ok | afterConnect ok | resetIdle | discardConnect
  | readTerminal nread | afterTerminal =>
    simp only [resume, failConnecting, deliverConnect, afterConnect,
      resetIdle, discardConnect, readTerminal, afterTerminal,
      beginClose]
    repeat' split
    all_goals exact h
  | backendClose notify => exact backendBeginClose_handles h
  | discardWrites discards => exact discardWrites_handles h
  | closeHandle => exact closeHandle_handles h
  | submitNextWrite => exact (submitNextWrite_unread rfl).handles h
  | backendBeginClose => exact backendBeginClose_handles h

theorem call_handles {a : Call} (h : HandlesKept s todo) (hcall : call s a = some r) :
    r.Leaves HandlesKept todo := by
  cases a with
  | connect ip port | readStart =>
    obtain ⟨-, heq⟩ := ite_none_right_eq_some.mp hcall
    cases heq
    exact h
  | write data rc =>
    change s.write data rc = some r at hcall
    unfold write at hcall
    dsimp only at hcall
    split_ifs at hcall <;> cases hcall
    · exact h
    · exact (submitNextWrite_unread rfl).handles h
  | readStop =>
    cases hcall
    exact h
  | close =>
    cases hcall
    exact beginClose_handles h

theorem event_handles {e : Event} (h : HandlesKept s []) (hevent : event s e = some r) :
    HandlesKept r.1 r.2 := by
  rw [← append_nil r.2]
  cases e with
  | onConnectDone req status =>
    obtain ⟨-, heq⟩ := ite_none_right_eq_some.mp hevent
    cases heq
    split
    · exact (connectDone_unread rfl).handles h
    · exact h
  | onWriteDone req status =>
    obtain ⟨-, heq⟩ := ite_none_right_eq_some.mp hevent
    cases heq
    split <;> exact h
  | onRead bytes =>
    change s.onRead bytes = some r at hevent
    unfold onRead readData at hevent
    split_ifs at hevent <;> cases hevent <;> exact h
  | onReadFailed nread =>
    obtain ⟨-, heq⟩ := ite_none_right_eq_some.mp hevent
    cases heq
    split
    · exact h
    · exact backendBeginClose_handles h
  | onClosed handle =>
    obtain ⟨-, heq⟩ := ite_none_right_eq_some.mp hevent
    cases heq
    exact (notifyClosed_unread rfl).handles ⟨h.1, nofun⟩

theorem step_handles {adopted : Bool} {c d : Config State Rest} {a : Label Call Int Event}
    (hreads : ReadsKept c.store c.todo) (h : HandlesKept c.store c.todo)
    (hundisturbed : Undisturbed parses c a) (hstep : (program parses adopted).step c a = some d) :
    HandlesKept d.store d.todo := by
  cases Program.step_effect hstep with
  | call s todo a r _ hcall => exact call_handles h hcall
  | ret s todo => exact h
  | resume s rest todo rc r hresume =>
    cases hresume
    refine resume_handles h fun ip port hrest hparses => ?_
    have hopen := hundisturbed ip port todo (hrest ▸ rfl) hparses
    by_contra hlatched
    exact nomatch hopen.symm.trans (hreads.owned (eq_true_of_ne_false hlatched))
  | event s e r hevent => exact event_handles h hevent

/-- **Handles are closed**, in every run in which no socket is closed between the report of
`kConnecting` and the backend's `connect`. A handle that is made after the latches are set is out of
reach for `begin_close`. -/
theorem handles_settled (parses : String → Bool) (adopted : Bool)
    (run : List (Label Call Int Event))
    (hundisturbed : (program parses adopted).machine.Meets (Undisturbed parses)
      (program parses adopted).machine.init run) :
    (program parses adopted).machine.Always HandlesSettled
      (program parses adopted).machine.init run := by
  have hinit : HandlesKept (initial adopted) [] := by
    cases adopted <;> exact ⟨nodup_nil, nofun⟩
  have hkept := Machine.always_of_meets
    (I := fun c : Config State Rest => ReadsKept c.store c.todo ∧ HandlesKept c.store c.todo)
    (fun _ _ _ h hc hstep =>
      ⟨(keeps_reads parses adopted).step h.1 hstep, step_handles h.1 h.2 hc hstep⟩)
    ⟨initial_reads adopted, hinit⟩ hundisturbed
  refine hkept.mono ?_
  rintro ⟨s, todo⟩ ⟨hreads, hhandles⟩
  refine ⟨hhandles.1, ?_⟩
  rintro rfl hlatched handle hhandle
  have hbackend := (hreads.closing hlatched).resolve_left (Nat.lt_irrefl 0)
  exact (hhandles.2 hbackend handle hhandle).resolve_left (Nat.lt_irrefl 0)

/-- A socket that is closed while its connect request is pending. Its handle is passed to `uv_close`
when the last function has returned, and released after the request is cancelled. -/
theorem handles_settled_connecting : (program (fun _ => true) false).machine.Always HandlesSettled
      (program (fun _ => true) false).machine.init
      [.call (.connect "127.0.0.1" 80), .ret, .resume 0, .call .close, .ret, .resume 0, .ret,
        .resume 0, .resume 0, .resume 0, .resume 0, .resume 0, .event (.onConnectDone 0 (-125)),
        .event (.onClosed 0), .ret] := by
  apply handles_settled
  iterate 2
    rintro _ ⟨⟩
    refine ⟨trivial, ?_⟩
  rintro _ ⟨⟩
  refine ⟨fun _ _ _ _ _ => rfl, ?_⟩
  iterate 12
    rintro _ ⟨⟩
    refine ⟨by first | trivial | nofun, ?_⟩
  trivial

/-- A socket that is closed in the callback of its `kConnecting`. -/
theorem close_while_connecting_leaks : ∃ c : Config State Rest,
    (program (fun _ => true) false).machine.run (program (fun _ => true) false).machine.init
      [.call (.connect "127.0.0.1" 80), .call .close, .ret, .resume 0, .resume 0, .resume 0, .ret,
        .resume 0] = some c ∧ ¬ HandlesSettled c := by
  refine ⟨_, rfl, fun h => ?_⟩
  exact absurd (h.requested rfl rfl 0 rfl) not_mem_nil

end CxxKit.TcpSocket
