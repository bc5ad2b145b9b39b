import CxxKit.Network.TcpSocket
import Mathlib.Data.List.Count

/-!
The callback of `TcpSocket::connect`, and whether a socket connects again.

The callback is delivered by `connect_done`, by `begin_close`, or by
`connect_done` called from the backend's `begin_close`.  As long as it is not
delivered, one of these is on the control stack or the connect request is with
libuv.  Every way back to `kIdle` goes through `begin_close`, whose latch is
never reset: no socket accepts a second `connect`.
-/

namespace CxxKit.TcpSocket

open CxxKit.Network List Option Reentrant State Transition

variable {s : State} {r : Step} {todo : List (Frame Rest)} {parses : String → Bool}
  {k : Frame Rest}

/-- The part of the state that connecting passes through. -/
structure Dial where
  connects : Nat
  connected : List (Nat × Bool)
  onConnect : Option Nat
  backendOnConnect : Bool
  connecting : List Nat
  state : SocketState
  closeRequested : Bool

def State.dial (s : State) : Dial where
  connects := s.connects
  connected := s.connected
  onConnect := s.mOnConnect
  backendOnConnect := s.mBackend.mOnConnect
  connecting := s.uv.connecting
  state := s.mState
  closeRequested := s.mCloseRequested

/-- A frame that goes on to deliver the callback of `connect`. -/
def delivers : Frame Rest → Bool
  | .rest (.backendConnect _ _) | .rest (.failConnecting _) | .rest (.deliverConnect _)
  | .rest .discardConnect => true
  | _ => false

/-- Every accepted `connect` has its callback kept or invoked, and a socket that has dialled
is not idle again without the latch. -/
structure ConnectsPlaced (s : State) (todo : List (Frame Rest)) : Prop where
  placed : ∀ n, (s.connected.map Prod.fst).count n + s.mOnConnect.toList.count n
    = if n < s.connects then 1 else 0
  spent : s.connects ≠ 0 → s.mState = .kIdle → s.mCloseRequested = true
  latched : Frame.rest Rest.resetIdle ∈ todo → s.mCloseRequested = true

/-- A callback that is kept will be delivered. -/
structure ConnectsKept (s : State) (todo : List (Frame Rest)) : Prop
    extends ConnectsPlaced s todo where
  attended : s.mOnConnect ≠ none →
    todo.any delivers = true ∨ s.mBackend.mOnConnect = true ∧ s.uv.connecting ≠ []

theorem ConnectsPlaced.pop (h : ConnectsPlaced s (k :: todo)) : ConnectsPlaced s todo :=
  { h with latched := fun hmem => h.latched (mem_cons_of_mem _ hmem) }

theorem ConnectsKept.pop (h : ConnectsKept s (k :: todo)) (hk : delivers k = false) :
    ConnectsKept s todo where
  toConnectsPlaced := h.toConnectsPlaced.pop
  attended hset := by
    have hattended := h.attended hset
    rwa [any_cons, hk] at hattended

/-! ### Functions that do not touch the callback -/

/-- The function, started from `d`, leaves the callback alone and goes back to `kIdle` only
with the latch set. -/
structure Undialled (d : Dial) (r : Step) : Prop where
  connects : r.1.connects = d.connects
  connected : r.1.connected = d.connected
  onConnect : r.1.mOnConnect = d.onConnect
  backend : r.1.mBackend.mOnConnect = d.backendOnConnect
  connecting : r.1.uv.connecting = d.connecting
  latched : d.closeRequested = true → r.1.mCloseRequested = true
  idle : r.1.mState = .kIdle → d.state = .kIdle
  reset : Frame.rest Rest.resetIdle ∈ r.2 → r.1.mCloseRequested = true

theorem Undialled.placed (h : Undialled s.dial r) (hplaced : ConnectsPlaced s todo) :
    r.Leaves ConnectsPlaced todo where
  placed n := by
    rw [h.connected, h.onConnect, h.connects]
    exact hplaced.placed n
  spent hconnects hidle := by
    rw [h.connects] at hconnects
    exact h.latched (hplaced.spent hconnects (h.idle hidle))
  latched hmem := (mem_append.mp hmem).elim h.reset fun hold =>
    h.latched (hplaced.latched hold)

theorem Undialled.kept (h : Undialled s.dial r) (hkept : ConnectsKept s todo) :
    r.Leaves ConnectsKept todo where
  toConnectsPlaced := h.placed hkept.toConnectsPlaced
  attended hset := by
    rw [h.onConnect] at hset
    rw [h.backend, h.connecting, any_append]
    refine (hkept.attended hset).imp_left fun hany => ?_
    rw [hany, Bool.or_true]

theorem Undialled.andThen {d : Dial} {k : Rest} (h : Undialled d r) (hk : k ≠ .resetIdle) :
    Undialled d (r.andThen k) where
  __ := h
  reset hmem := by
    rw [Outcome.andThen_snd, mem_append, mem_singleton] at hmem
    exact hmem.elim h.reset fun heq => absurd (Frame.rest.inj heq).symm hk

variable {d : Dial}

namespace State

theorem beginClose_undialled (h : s.dial = d) : Undialled d s.beginClose := by
  subst h
  unfold beginClose
  split_ifs <;> constructor <;> simp_all [setState, dial]

variable {ok : Bool}

theorem connectDone_undialled (h : s.dial = d) : Undialled d (s.connectDone ok) := by
  subst h
  unfold connectDone
  split_ifs <;> constructor <;> simp_all [setState, reportError, dial]

theorem notifyClosed_undialled (h : s.dial = d) : Undialled d s.notifyClosed := by
  subst h
  unfold notifyClosed closeDone
  split_ifs <;> constructor <;> simp_all [setState, dial]

theorem backendBeginClose_undialled (h : s.dial = d) : Undialled d s.backendBeginClose := by
  subst h
  unfold backendBeginClose
  split_ifs <;> constructor <;> simp_all [dial]

theorem submitNextWrite_undialled {rc : Int} (h : s.dial = d) :
    Undialled d (s.submitNextWrite rc) := by
  subst h
  unfold submitNextWrite invokeWritten
  split
  · constructor <;> simp_all [dial]
  · split
    · constructor <;> simp_all [dial]
    · split_ifs <;> constructor <;> simp_all [dial]

theorem failConnecting_undialled : Undialled s.dial (s.failConnecting ok) := by
  unfold failConnecting
  split_ifs <;> constructor <;> simp_all [setState, dial]

theorem closeHandle_undialled : Undialled s.dial s.closeHandle := by
  unfold closeHandle
  split
  · exact notifyClosed_undialled rfl
  · constructor <;> simp_all [dial]

theorem readTerminal_undialled {nread : Int} : Undialled s.dial (s.readTerminal nread) := by
  unfold readTerminal
  split_ifs <;> constructor <;> simp_all [dial]

/-- `begin_close` sets the latch, so the reset to `kIdle` that follows it finds it set. -/
theorem afterConnect_undialled : Undialled s.dial (s.afterConnect ok) := by
  unfold afterConnect
  split_ifs
  · have hclose : Undialled s.dial s.beginClose := beginClose_undialled rfl
    refine { hclose with reset := fun _ => ?_ }
    unfold beginClose setState
    split_ifs <;> simp_all
  · constructor <;> simp_all [dial]

/-! ### Functions that deliver the callback -/

/-- Whatever `connect_done` finds, it goes on to deliver. -/
theorem connectDone_delivers : (s.connectDone ok).2.any delivers = true := by
  unfold connectDone
  split_ifs <;> rfl

section

variable (h : ConnectsPlaced s todo) {k : Rest}

include h

theorem connectDone_kept : (s.connectDone ok).Leaves ConnectsKept todo where
  toConnectsPlaced := (connectDone_undialled rfl).placed h
  attended _ := .inl (by rw [any_append, connectDone_delivers, Bool.true_or])

theorem failConnecting_kept : (s.failConnecting ok).Leaves ConnectsKept todo where
  toConnectsPlaced := failConnecting_undialled.placed h
  attended _ := by
    unfold failConnecting
    split_ifs <;> exact .inl rfl

/-- The callback is taken out and invoked; `k` is what the function goes on with. -/
theorem invoke_kept {n : Nat} (hset : s.mOnConnect = some n) (hk : k ≠ .resetIdle) :
    ConnectsKept { s with mOnConnect := none, connected := s.connected ++ [(n, ok)] }
      ([.callback, .rest k] ++ todo) where
  placed m := by
    have hm := h.placed m
    simp only [hset, toList_some, toList_none, map_append, count_append,
      map_cons, map_nil, count_cons, count_nil] at hm ⊢
    omega
  spent := h.spent
  latched hmem := by
    rw [mem_append] at hmem
    refine hmem.elim (fun hnew => ?_) h.latched
    simp only [mem_cons, not_mem_nil, or_false, reduceCtorEq, false_or, Frame.rest.injEq] at hnew
    exact absurd hnew.symm hk
  attended hset := absurd rfl hset

/-- Nothing to invoke: the function goes on with `k` at once. -/
theorem skip_kept (hset : s.mOnConnect = none) (hk : k ≠ .resetIdle) :
    ConnectsKept s ([.rest k] ++ todo) where
  placed := h.placed
  spent := h.spent
  latched hmem := by
    rw [mem_append, mem_singleton] at hmem
    exact hmem.elim (fun heq => absurd (Frame.rest.inj heq).symm hk) h.latched
  attended hne := absurd hset hne

theorem deliverConnect_kept : (s.deliverConnect ok).Leaves ConnectsKept todo := by
  unfold deliverConnect
  split
  next n hset => exact invoke_kept h hset nofun
  next hset => exact skip_kept h hset nofun

theorem discardConnect_kept : s.discardConnect.Leaves ConnectsKept todo := by
  unfold discardConnect
  split
  next n hset => exact invoke_kept h hset nofun
  next hset => exact skip_kept h hset nofun

theorem backendConnect_kept {ip : String} {rc : Int} :
    (s.backendConnect parses ip rc).Leaves ConnectsKept todo := by
  unfold backendConnect
  split_ifs
  · exact connectDone_kept ⟨h.placed, h.spent, h.latched⟩
  · exact connectDone_kept ⟨h.placed, h.spent, h.latched⟩
  · exact ⟨⟨h.placed, h.spent, h.latched⟩, fun _ => .inr ⟨rfl, by simp⟩⟩

end

theorem backendDiscardConnect_kept (h : ConnectsKept s todo) :
    s.backendDiscardConnect.Leaves ConnectsKept todo := by
  unfold backendDiscardConnect
  split_ifs
  · rw [Outcome.leaves_andThen]
    refine connectDone_kept ⟨h.placed, h.spent, fun hmem => h.latched ?_⟩
    simpa using hmem
  · refine ⟨⟨h.placed, h.spent, fun hmem => h.latched (by simpa using hmem)⟩, fun hset => ?_⟩
    exact (h.attended hset).imp_left fun hany => by rw [any_append, hany, Bool.or_true]

theorem resetIdle_kept (h : ConnectsKept s (.rest .resetIdle :: todo)) :
    s.resetIdle.Leaves ConnectsKept todo := by
  have hlatch := h.latched mem_cons_self
  unfold resetIdle
  split_ifs
  · exact ⟨⟨h.placed, fun _ _ => hlatch, fun _ => hlatch⟩, (h.pop rfl).attended⟩
  · exact h.pop rfl

end State

/-! ### Every run -/

open Undialled

theorem resume_connects {rest : Rest} {rc : Int} (h : ConnectsKept s (.rest rest :: todo)) :
    (resume parses s rest rc).Leaves ConnectsKept todo := by
  cases rest with
  | backendConnect ip port => exact backendConnect_kept h.toConnectsPlaced.pop
  | failConnecting ok => exact failConnecting_kept h.toConnectsPlaced.pop
  | deliverConnect ok => exact deliverConnect_kept h.toConnectsPlaced.pop
  | discardConnect => exact discardConnect_kept h.toConnectsPlaced.pop
  | resetIdle => exact resetIdle_kept h
  | afterConnect ok => exact afterConnect_undialled.kept (h.pop rfl)
  | backendClose notify =>
    refine kept ?_ (h.pop rfl)
    exact backendBeginClose_undialled rfl
  | discardWrites discards =>
    cases discards with
    | nil => exact backendDiscardConnect_kept (h.pop rfl)
    | cons w rest =>
      refine kept ?_ (h.pop rfl)
      constructor <;> simp_all [resume, discardWrites, invokeWritten, dial]
  | closeHandle => exact closeHandle_undialled.kept (h.pop rfl)
  | submitNextWrite => exact (submitNextWrite_undialled rfl).kept (h.pop rfl)
  | readTerminal nread => exact readTerminal_undialled.kept (h.pop rfl)
  | afterTerminal =>
    refine kept (andThen ?_ nofun) (h.pop rfl)
    exact beginClose_undialled rfl
  | backendBeginClose => exact (backendBeginClose_undialled rfl).kept (h.pop rfl)

theorem connect_kept {ip : String} {port : UInt16} (h : ConnectsKept s todo)
    (hconnect : s.connect ip port = some r) : r.Leaves ConnectsKept todo := by
  unfold connect at hconnect
  split_ifs at hconnect with haccepted
  cases hconnect
  -- an idle socket without the latch has never dialled
  have hfirst : s.connects = 0 := by
    by_contra hne
    have hlatch := h.spent hne haccepted.1
    rw [haccepted.2] at hlatch
    cases hlatch
  refine ⟨⟨fun n => ?_, fun _ => nofun, fun hmem => ?_⟩, fun _ => .inl rfl⟩
  · have hn := h.placed n
    change (s.connected.map Prod.fst).count n + [s.connects].count n
      = if n < s.connects + 1 then 1 else 0
    grind
  · exact h.latched (by simpa [setState] using hmem)

theorem call_connects {a : Call} (h : ConnectsKept s todo) (hcall : call s a = some r) :
    r.Leaves ConnectsKept todo := by
  cases a with
  | connect ip port => exact connect_kept h hcall
  | write data rc =>
    change s.write data rc = some r at hcall
    unfold write at hcall
    dsimp only at hcall
    split_ifs at hcall
    · cases hcall
      refine kept ?_ h
      constructor <;> simp_all [invokeWritten, dial]
    · cases hcall
      refine kept ?_ h
      exact submitNextWrite_undialled rfl
  | readStart =>
    change s.readStart = some r at hcall
    unfold readStart at hcall
    split_ifs at hcall
    cases hcall
    refine kept ?_ h
    constructor <;> simp_all [dial]
  | readStop =>
    cases hcall
    refine kept ?_ h
    constructor <;> simp_all [backendReadStop, dial]
  | close =>
    cases hcall
    exact (beginClose_undialled rfl).kept h

theorem event_connects {e : Event} (h : ConnectsKept s []) (hevent : event s e = some r) :
    ConnectsKept r.1 r.2 := by
  have hover : ∀ {r' : Step}, Undialled s.dial r' → ConnectsKept r'.1 r'.2 := by
    intro r' hundialled
    simpa [Outcome.Leaves] using hundialled.kept h
  cases e with
  | onConnectDone req status =>
    obtain ⟨-, heq⟩ := ite_none_right_eq_some.mp hevent
    cases heq
    split
    · rw [← append_nil (Prod.snd _)]
      exact connectDone_kept ⟨h.placed, h.spent, h.latched⟩
    next hnone =>
      refine ⟨⟨h.placed, h.spent, h.latched⟩, fun hset => ?_⟩
      exact absurd (h.attended hset) (by simp_all)
  | onWriteDone req status =>
    obtain ⟨-, heq⟩ := ite_none_right_eq_some.mp hevent
    cases heq
    apply hover
    split <;> constructor <;> simp_all [invokeWritten, dial]
  | onRead bytes =>
    change s.onRead bytes = some r at hevent
    unfold onRead readData at hevent
    split_ifs at hevent <;> cases hevent <;> apply hover <;> constructor <;> simp_all [dial]
  | onReadFailed nread =>
    obtain ⟨-, heq⟩ := ite_none_right_eq_some.mp hevent
    cases heq
    apply hover
    split
    · constructor <;> simp_all [readFailed, reportError, dial]
    · exact backendBeginClose_undialled rfl
  | onClosed handle =>
    obtain ⟨-, heq⟩ := ite_none_right_eq_some.mp hevent
    cases heq
    exact hover (notifyClosed_undialled rfl)

theorem keeps_connects (parses : String → Bool) (adopted : Bool) :
    (program parses adopted).Keeps ConnectsKept where
  call _ _ _ _ h hcall := call_connects h hcall
  ret _ _ h := h.pop rfl
  resume s rest todo rc r h hresume := by
    cases hresume
    exact resume_connects h
  event _ _ _ h hevent := event_connects h hevent

theorem initial_connects (adopted : Bool) : ConnectsKept (initial adopted) [] := by
  cases adopted <;>
    exact ⟨⟨fun n => rfl, absurd rfl, nofun⟩, absurd rfl⟩

end CxxKit.TcpSocket
