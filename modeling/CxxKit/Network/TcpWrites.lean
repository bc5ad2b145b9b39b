import CxxKit.Network.TcpSocket
import Mathlib.Data.List.Count

/-!
The writes of a `TcpSocket`.

A write is in one of four places: queued in the backend, in flight, on its way to
be discarded by an interrupted `begin_close`, or its callback has been invoked.
Every step moves a write between these places and leaves the others where they
are, so each callback is invoked once.  A queue that is not empty at rest has a
write in flight, so the queue drains with the last request.
-/

namespace CxxKit.TcpSocket

open CxxKit.Network List Option Prod Reentrant State

variable {s : State} {r : Step} {todo fs : List (Frame Rest)} {parses : String → Bool}

/-- The part of the state that writes pass through. -/
structure Ledger where
  writes : List PendingWrite
  written : List (Nat × Bool)
  submitted : List PendingWrite
  pending : List PendingWrite
  current : Option Nat
  req : Option Nat
  writing : List Nat

def State.ledger (s : State) : Ledger where
  writes := s.writes
  written := s.written
  submitted := s.submitted
  pending := s.mBackend.mPendingWrites
  current := s.mBackend.mOnWrittenCurrent
  req := s.mBackend.mWriteReq
  writing := s.uv.writing

/-- The writes that interrupted calls of `begin_close` have taken out of the queue. -/
def discarded (todo : List (Frame Rest)) : List PendingWrite :=
  todo.flatMap fun
    | .rest (.discardWrites discards) => discards
    | _ => []

@[simp] theorem discarded_nil : discarded [] = [] := rfl

@[simp] theorem discarded_callback : discarded (.callback :: todo) = discarded todo := rfl

@[simp] theorem discarded_append : discarded (fs ++ todo) = discarded fs ++ discarded todo :=
  flatMap_append

/-- In how many places the callback of call `n` is. -/
def Ledger.places (l : Ledger) (discards : List PendingWrite) (n : Nat) : Nat :=
  (l.written.map fst).count n + l.current.toList.count n
    + (l.pending.map (·.mOnWritten)).count n + (discards.map (·.mOnWritten)).count n

/-- Every write that was called is in one place, what libuv has is the write in flight, and
what was and will be submitted is in the order of the calls. -/
structure Ledger.Sound (l : Ledger) (discards : List PendingWrite) : Prop where
  placed : ∀ n, l.places discards n = if n < l.writes.length then 1 else 0
  inFlight : l.writing = l.req.toList
  current : l.current.isSome = l.req.isSome
  order : (l.submitted ++ l.pending).Sublist l.writes

/-- The ledger is sound, and a queue that is not empty is attended. -/
structure WritesKept (s : State) (todo : List (Frame Rest)) : Prop where
  sound : s.ledger.Sound (discarded todo)
  queued : s.ledger.pending ≠ [] → s.ledger.req.isSome ∨ Frame.rest Rest.submitNextWrite ∈ todo

/-! ### Functions that move no write -/

variable {l : Ledger}

/-- The function ends with the ledger `l` and has taken nothing out of the queue. -/
structure Silent (l : Ledger) (r : Step) : Prop where
  ledger : r.1.ledger = l
  discards : discarded r.2 = []

theorem Silent.kept (h : Silent s.ledger r) (hkept : WritesKept s todo) :
    r.Leaves WritesKept todo := by
  constructor
  · rw [h.ledger, discarded_append, h.discards]
    exact hkept.sound
  · intro hpending
    rw [h.ledger] at hpending ⊢
    exact (hkept.queued hpending).imp_right (mem_append_right _)

theorem Silent.andThen {k : Rest} (h : Silent l r) (hk : discarded [.rest k] = []) :
    Silent l (r.andThen k) := by
  refine ⟨h.ledger, ?_⟩
  rw [Outcome.andThen_snd, discarded_append, h.discards, hk]
  rfl

theorem WritesKept.pop {k : Frame Rest} (h : WritesKept s (k :: todo)) (hk : discarded [k] = [])
    (hsubmit : k ≠ .rest .submitNextWrite) : WritesKept s todo := by
  constructor
  · have hsound := h.sound
    rwa [← singleton_append, discarded_append, hk] at hsound
  · intro hpending
    exact (h.queued hpending).imp_right fun hmem =>
      (mem_cons.mp hmem).resolve_left (Ne.symm hsubmit)

namespace State

theorem beginClose_silent (h : s.ledger = l) : Silent l s.beginClose := by
  subst h
  unfold beginClose
  split_ifs <;> exact ⟨rfl, rfl⟩

theorem connectDone_silent {ok : Bool} (h : s.ledger = l) : Silent l (s.connectDone ok) := by
  subst h
  unfold connectDone
  split_ifs <;> exact ⟨rfl, rfl⟩

theorem notifyClosed_silent (h : s.ledger = l) : Silent l s.notifyClosed := by
  subst h
  unfold notifyClosed closeDone
  split_ifs <;> exact ⟨rfl, rfl⟩

theorem backendDiscardConnect_silent (h : s.ledger = l) : Silent l s.backendDiscardConnect := by
  subst h
  unfold backendDiscardConnect
  split_ifs
  · refine Silent.andThen ?_ rfl
    exact connectDone_silent rfl
  · exact ⟨rfl, rfl⟩

end State

/-! ### Functions that move writes -/

namespace Ledger.Sound

variable {discards rest : List PendingWrite} {w : PendingWrite}

section

variable (h : l.Sound discards)

include h

/-- `write` on a closed socket: the callback is invoked at once. -/
theorem reject (hw : w.mOnWritten = l.writes.length) (ok : Bool) : Sound { l with
      writes := l.writes ++ [w], written := l.written ++ [(w.mOnWritten, ok)] } discards where
  placed n := by
    have hn := h.placed n
    simp only [places, map_append, count_append, map_cons, map_nil,
      count_cons, count_nil, length_append, length_singleton, hw] at hn ⊢
    grind
  inFlight := h.inFlight
  current := h.current
  order := h.order.trans (sublist_append_left _ _)

theorem enqueue (hw : w.mOnWritten = l.writes.length) :
    Sound { l with writes := l.writes ++ [w], pending := l.pending ++ [w] } discards where
  placed n := by
    have hn := h.placed n
    simp only [places, map_append, count_append, map_cons, map_nil,
      count_cons, count_nil, length_append, length_singleton, hw] at hn ⊢
    grind
  inFlight := h.inFlight
  current := h.current
  order := by
    rw [← append_assoc]
    exact h.order.append (List.Sublist.refl _)

/-- The head of the queue is submitted and refused. -/
theorem refuse (hpending : l.pending = w :: rest) : Sound { l with
      pending := rest, submitted := l.submitted ++ [w]
      written := l.written ++ [(w.mOnWritten, false)] } discards where
  placed n := by
    have hn := h.placed n
    simp only [places, hpending, map_append, count_append, map_cons, map_nil,
      count_cons, count_nil] at hn ⊢
    omega
  inFlight := h.inFlight
  current := h.current
  order := by
    have horder := h.order
    rw [hpending] at horder
    rwa [append_assoc]

/-- The head of the queue is submitted and accepted. -/
theorem submit (hpending : l.pending = w :: rest) (hreq : l.req = none) (req : Nat) : Sound { l with
      pending := rest, submitted := l.submitted ++ [w], current := some w.mOnWritten
      req := some req, writing := l.writing ++ [req] } discards where
  placed n := by
    have hn := h.placed n
    have hcurrent : l.current = none := by
      have hisSome := h.current
      rw [hreq] at hisSome
      simpa using hisSome
    simp only [places, hpending, hcurrent, toList_none, toList_some, map_cons,
      count_cons, count_nil] at hn ⊢
    omega
  inFlight := by
    rw [h.inFlight, hreq]
    rfl
  current := rfl
  order := by
    have horder := h.order
    rw [hpending] at horder
    rwa [append_assoc]

theorem complete {n : Nat} (hcurrent : l.current = some n) (ok : Bool) : Sound { l with
      current := none, req := none, writing := []
      written := l.written ++ [(n, ok)] } discards where
  placed m := by
    have hm := h.placed m
    simp only [places, hcurrent, toList_none, toList_some, map_append,
      count_append, map_cons, map_nil, count_cons, count_nil] at hm ⊢
    omega
  inFlight := rfl
  current := rfl
  order := h.order

theorem discardAll : Sound { l with pending := [] } (l.pending ++ discards) where
  placed n := by
    have hn := h.placed n
    simp only [places, map_append, count_append, map_nil, count_nil] at hn ⊢
    omega
  inFlight := h.inFlight
  current := h.current
  order := by
    rw [append_nil]
    exact (sublist_append_left _ _).trans h.order

end

theorem discardOne (h : l.Sound (w :: discards)) :
    Sound { l with written := l.written ++ [(w.mOnWritten, false)] } discards where
  placed n := by
    have hn := h.placed n
    simp only [places, map_append, count_append, map_cons, map_nil, count_cons, count_nil] at hn ⊢
    omega
  inFlight := h.inFlight
  current := h.current
  order := h.order

end Ledger.Sound

namespace State

theorem submitNextWrite_kept {rc : Int} (h : s.ledger.Sound (discarded todo)) :
    (s.submitNextWrite rc).Leaves WritesKept todo := by
  unfold submitNextWrite
  split
  next hreq => exact ⟨h, fun _ => .inl hreq⟩
  next hreq =>
    have hreq : s.mBackend.mWriteReq = none := by simpa using hreq
    split
    · next hpending => exact ⟨h, absurd hpending⟩
    · next w rest hpending =>
        split_ifs
        · exact ⟨h.refuse hpending, fun _ => .inr (by simp [invokeWritten])⟩
        · exact ⟨h.submit hpending hreq _, fun _ => .inl rfl⟩

theorem backendBeginClose_kept (h : WritesKept s todo) :
    s.backendBeginClose.Leaves WritesKept todo := by
  unfold backendBeginClose
  split_ifs
  · exact h
  · exact ⟨h.sound.discardAll, absurd rfl⟩

theorem discardWrites_kept {discards : List PendingWrite}
    (h : WritesKept s (.rest (.discardWrites discards) :: todo)) :
    (s.discardWrites discards).Leaves WritesKept todo := by
  cases discards with
  | nil => exact (backendDiscardConnect_silent rfl).kept (h.pop rfl nofun)
  | cons w rest =>
    refine ⟨h.sound.discardOne, fun hpending => ?_⟩
    refine (h.queued hpending).imp_right fun hmem => ?_
    simpa [discardWrites, invokeWritten] using hmem

theorem write_kept {data : List UInt8} {rc : Int} (h : WritesKept s todo)
    (hwrite : s.write data rc = some r) : r.Leaves WritesKept todo := by
  unfold write at hwrite
  dsimp only at hwrite
  split_ifs at hwrite
  · cases hwrite
    exact ⟨h.sound.reject rfl false,
      fun hpending => (h.queued hpending).imp_right (mem_cons_of_mem _)⟩
  · cases hwrite
    exact submitNextWrite_kept (h.sound.enqueue rfl)

/-- What libuv completes is the write in flight. -/
theorem onWriteDone_kept {req : Nat} {status : Int} (h : WritesKept s [])
    (hdone : s.onWriteDone req status = some r) : WritesKept r.1 r.2 := by
  unfold onWriteDone at hdone
  split at hdone
  case isFalse => cases hdone
  rename_i hmem
  cases hdone
  have hwriting : s.uv.writing = s.mBackend.mWriteReq.toList := h.sound.inFlight
  obtain ⟨req', hreq⟩ : ∃ req', s.mBackend.mWriteReq = some req' := by
    by_contra hnone
    simp_all
  obtain ⟨n, hn⟩ : ∃ n, s.mBackend.mOnWrittenCurrent = some n := by
    rw [← isSome_iff_exists]
    exact h.sound.current.trans (by rw [ledger, hreq]; rfl)
  obtain rfl : req = req' := by simpa [hwriting, hreq] using hmem
  refine ⟨?_, fun _ => .inr (by simp [hn, invokeWritten])⟩
  have hsound := h.sound.complete hn (decide (status = 0))
  simpa [ledger, hn, hreq, hwriting, invokeWritten, discarded] using hsound

end State

/-! ### Every run -/

/-- Only the discarding and the submitting functions move writes. -/
def Rest.movesWrites : Rest → Bool
  | .submitNextWrite | .discardWrites _ | .backendClose _ | .backendBeginClose => true
  | _ => false

theorem resume_silent {rest : Rest} {rc : Int} (h : rest.movesWrites = false) :
    Silent s.ledger (resume parses s rest rc) := by
  cases rest with
  | submitNextWrite | discardWrites _ | backendClose _ | backendBeginClose => cases h
  | backendConnect ip port =>
    change Silent s.ledger (s.backendConnect parses ip rc)
    unfold backendConnect
    split_ifs
    · exact connectDone_silent rfl
    · exact connectDone_silent rfl
    · exact ⟨rfl, rfl⟩
  | failConnecting ok =>
    change Silent s.ledger (s.failConnecting ok)
    unfold failConnecting
    split_ifs <;> exact ⟨rfl, rfl⟩
  | deliverConnect ok =>
    change Silent s.ledger (s.deliverConnect ok)
    unfold deliverConnect
    split <;> exact ⟨rfl, rfl⟩
  | afterConnect ok =>
    change Silent s.ledger (s.afterConnect ok)
    unfold afterConnect
    split_ifs
    · exact (beginClose_silent rfl).andThen rfl
    · exact ⟨rfl, rfl⟩
  | resetIdle =>
    change Silent s.ledger s.resetIdle
    unfold resetIdle
    split_ifs <;> exact ⟨rfl, rfl⟩
  | discardConnect =>
    change Silent s.ledger s.discardConnect
    unfold discardConnect
    split <;> exact ⟨rfl, rfl⟩
  | closeHandle =>
    change Silent s.ledger s.closeHandle
    unfold closeHandle
    split
    · exact notifyClosed_silent rfl
    · exact ⟨rfl, rfl⟩
  | readTerminal nread =>
    change Silent s.ledger (s.readTerminal nread)
    unfold readTerminal
    split_ifs <;> exact ⟨rfl, rfl⟩
  | afterTerminal =>
    refine Silent.andThen ?_ rfl
    exact beginClose_silent rfl

theorem resume_kept {rest : Rest} {rc : Int} (h : WritesKept s (.rest rest :: todo)) :
    (resume parses s rest rc).Leaves WritesKept todo := by
  cases hmoves : rest.movesWrites with
  | false =>
    apply (resume_silent hmoves).kept (h.pop ?_ ?_)
    · cases rest <;> first | rfl | cases hmoves
    · rintro ⟨⟩
      cases hmoves
  | true =>
    cases rest with
    | submitNextWrite => exact submitNextWrite_kept h.sound
    | discardWrites discards => exact discardWrites_kept h
    | backendClose notify =>
      have hpop := h.pop rfl nofun
      exact backendBeginClose_kept ⟨hpop.sound, hpop.queued⟩
    | backendBeginClose => exact backendBeginClose_kept (h.pop rfl nofun)
    | _ => cases hmoves

theorem call_kept {a : Call} (h : WritesKept s todo) (hcall : call s a = some r) :
    r.Leaves WritesKept todo := by
  cases a with
  | write data rc => exact write_kept h hcall
  | connect ip port =>
    change s.connect ip port = some r at hcall
    unfold connect at hcall
    split_ifs at hcall
    cases hcall
    exact Silent.kept (s := s) ⟨rfl, rfl⟩ h
  | readStart =>
    change s.readStart = some r at hcall
    unfold readStart at hcall
    split_ifs at hcall
    cases hcall
    exact Silent.kept (s := s) ⟨rfl, rfl⟩ h
  | readStop =>
    cases hcall
    exact Silent.kept (s := s) ⟨rfl, rfl⟩ h
  | close =>
    cases hcall
    exact (beginClose_silent rfl).kept h

theorem event_kept {e : Event} (h : WritesKept s []) (hevent : event s e = some r) :
    WritesKept r.1 r.2 := by
  have hover : ∀ {r' : Step}, Silent s.ledger r' → WritesKept r'.1 r'.2 := by
    intro r' hsilent
    simpa [Outcome.Leaves] using hsilent.kept h
  cases e with
  | onWriteDone req status => exact onWriteDone_kept h hevent
  | onConnectDone req status =>
    obtain ⟨-, heq⟩ := ite_none_right_eq_some.mp hevent
    cases heq
    split
    · exact hover (connectDone_silent rfl)
    · exact hover ⟨rfl, rfl⟩
  | onRead bytes =>
    change s.onRead bytes = some r at hevent
    unfold onRead readData at hevent
    split_ifs at hevent <;> cases hevent <;> exact hover ⟨rfl, rfl⟩
  | onReadFailed nread =>
    obtain ⟨-, heq⟩ := ite_none_right_eq_some.mp hevent
    cases heq
    split
    · exact hover ⟨rfl, rfl⟩
    · rw [← append_nil (snd _)]
      exact backendBeginClose_kept ⟨h.sound, h.queued⟩
  | onClosed handle =>
    obtain ⟨-, heq⟩ := ite_none_right_eq_some.mp hevent
    cases heq
    exact hover (notifyClosed_silent rfl)

theorem keeps_writes (adopted : Bool) : (program parses adopted).Keeps WritesKept where
  call _ _ _ _ h hcall := call_kept h hcall
  ret _ _ h := h.pop rfl nofun
  resume s rest todo rc r h hresume := by
    cases hresume
    exact resume_kept h
  event _ _ _ h hevent := event_kept h hevent

theorem initial_writes (adopted : Bool) : WritesKept (initial adopted) [] := by
  cases adopted <;>
    exact ⟨⟨fun n => rfl, rfl, rfl, List.Sublist.refl _⟩, absurd rfl⟩

/-! ### What the callbacks of `write` are promised -/

/-- No callback of a write is invoked twice, one transport write is in flight at most, and
writes are submitted in the order of the calls; when no function is running and libuv has
completed every write, each callback has been invoked once. -/
structure WritesSettled (c : Config State Rest) : Prop where
  once : ∀ n, (c.store.written.map fst).count n ≤ 1
  inFlight : c.store.uv.writing.length ≤ 1
  order : c.store.submitted.Sublist c.store.writes
  done : c.todo = [] → c.store.uv.writing = [] →
    ∀ n < c.store.writes.length, (c.store.written.map fst).count n = 1

theorem WritesKept.settled (h : WritesKept s todo) : WritesSettled ⟨s, todo⟩ where
  once n := by
    have hplaced := h.sound.placed n
    change (s.written.map fst).count n ≤ 1
    change (s.written.map fst).count n + _ + _ + _ = _ at hplaced
    split at hplaced <;> omega
  inFlight := by
    have hwriting : s.uv.writing = s.mBackend.mWriteReq.toList := h.sound.inFlight
    rw [hwriting]
    cases s.mBackend.mWriteReq <;> simp
  order := (sublist_append_left _ _).trans h.sound.order
  done := by
    intro htodo hwriting n hn
    subst htodo
    have hreq : s.ledger.req = none := by
      have hinFlight := h.sound.inFlight
      change s.uv.writing = s.ledger.req.toList at hinFlight
      rw [hwriting] at hinFlight
      simpa using hinFlight.symm
    have hcurrent : s.ledger.current = none := by
      have hisSome := h.sound.current
      rw [hreq] at hisSome
      simpa using hisSome
    have hpending : s.ledger.pending = [] := by
      by_contra hne
      simpa [hreq] using h.queued hne
    have hplaced := h.sound.placed n
    rw [Ledger.places, hcurrent, hpending, if_pos (show n < s.ledger.writes.length from hn)]
      at hplaced
    simpa [ledger] using hplaced

/-- **Writes are settled**, in every interleaving of writes, closes and transport events, with
callbacks that call again, on a socket that connects or one that adopts a connected handle. At any
time each write is in one place, and from each place it is called back once. -/
theorem writes_settled (parses : String → Bool) (adopted : Bool)
    (run : List (Label Call Int Event)) :
    (program parses adopted).machine.Always WritesSettled
      (program parses adopted).machine.init run :=
  ((keeps_writes adopted).always (initial_writes adopted) run).mono fun _ h => h.settled

end CxxKit.TcpSocket
