import CxxKit.Network.UdpSocket
import Mathlib.Data.List.Count

/-!
The callbacks of the sends of a `UdpSocket`.

Completions carry no send: `send_done` gives each to the front of the queue of
callbacks.  The queue agrees with the requests of libuv as long as every send
that is queued is submitted or fails while it is alone in the queue.  A send to
an address that does not parse stays in the queue without a request, a send that
is refused while others are in flight takes the callback of one of them, and a
`send` made while `begin_close` discards the queue is dropped with it.
-/

namespace CxxKit.UdpSocket

open CxxKit.Network List Reentrant State Transition

variable {s : State} {r : Step} {todo fs : List (Frame Rest)} {parses : String → Bool}

/-- Each callback is invoked once at most and with an outcome of its own send; when no function
is running and libuv has completed every send, each has been invoked. -/
structure SendsSettled (c : Config State Rest) : Prop where
  once : ∀ n, (c.store.done.map Prod.fst).count n ≤ 1
  faithful : ∀ p ∈ c.store.done, p ∈ c.store.outcomes
  invoked : c.todo = [] → c.store.requests = [] →
    ∀ n < c.store.sends, (c.store.done.map Prod.fst).count n = 1

/-- A send that reaches `uv_udp_send` has an address that parses, and is refused only if no
other send is pending. -/
def State.Submits (parses : String → Bool) (answer : Answer) (ip : String) (s : State) : Prop :=
  parses ip = true ∧ (answer.send ≠ 0 → s.mPendingSendDones = [])

/-- The condition on the steps that submit a send. -/
def Orderly (parses : String → Bool) (c : Config State Rest) :
    Label (Call × Answer) Answer Event → Prop
  | .call (.sendTo _ ip _, answer) => c.store.mState = .kBound →
      c.store.mCloseRequested = false → c.store.Submits parses answer ip
  | .call (.send _, answer) => c.store.mCloseRequested = false
      ∧ (answer.send ≠ 0 → c.store.mPendingSendDones = [])
  | .resume answer => ∀ send todo, c.todo = .rest (.proceed (.submit send)) :: todo →
      c.store.mBackend.mCloseRequested = false → c.store.Submits parses answer send.ip
  | _ => True

/-! ### Frames -/

/-- The sends whose callback an interrupted function holds. -/
def waiting : Frame Rest → List Nat
  | .rest (.markBound (.submit send)) | .rest (.proceed (.submit send)) => [send.number]
  | .rest (.rejectSend number) => [number]
  | .rest (.discardSends pending) => pending
  | _ => []

/-- Parts of `send_done` and of `begin_close`, which the queue depends on. -/
def marked : Frame Rest → Bool
  | .rest (.popDone _) | .rest (.discardSends _) => true
  | _ => false

def marks (todo : List (Frame Rest)) : List (Frame Rest) := todo.filter marked

/-- `send_done` after the report of a failed send. -/
abbrev failed : Frame Rest := .rest (.popDone false)

/-- The callbacks in the queue and the requests of libuv. -/
structure Queue where
  pending : List Nat
  requests : List Nat
  outcomes : List (Nat × Bool)
  latched : Bool
  backendLatched : Bool

/-- The part of the state that sends pass through. -/
structure Account extends Queue where
  sends : Nat
  done : List (Nat × Bool)

def State.account (s : State) : Account where
  pending := s.mPendingSendDones
  requests := s.requests
  outcomes := s.outcomes
  latched := s.mCloseRequested
  backendLatched := s.mBackend.mCloseRequested
  sends := s.sends
  done := s.done

/-- Every callback is in one place, and those invoked were given an outcome of their send. -/
structure Account.Placed (q : Account) (todo : List (Frame Rest)) : Prop where
  places : ∀ n, (q.done.map Prod.fst).count n + q.pending.count n
    + (todo.flatMap waiting).count n = if n < q.sends then 1 else 0
  faithful : ∀ p ∈ q.done, p ∈ q.outcomes

/-- How the queue agrees with the requests of libuv.  `front` is the send that `send_done` is on its
way to. -/
inductive Queue.Aligned (q : Queue) (todo : List (Frame Rest)) : Prop
  /-- Before closing, the queue is the requests, behind the send that is being completed. -/
  | opened (front : Option Nat) (hopen : q.latched = false) (howned : q.backendLatched = false)
      (hmarks : marks todo = front.toList.map fun _ => failed)
      (hpending : q.pending = front.toList ++ q.requests)
      (hfront : ∀ n ∈ front, (n, false) ∈ q.outcomes)
  /-- While the queue is discarded, nothing is queued. -/
  | clearing (pending : List Nat) (others : List (Frame Rest)) (hlatched : q.latched = true)
      (hempty : q.pending = []) (htop : topRest todo = some (.discardSends pending))
      (hmarks : marks todo = .rest (.discardSends pending) :: others)
      (hothers : others ⊆ [failed])
  /-- After closing, only a send that was interrupted before is queued, and fails at once. -/
  | closed (front : Option Nat) (hlatched : q.latched = true) (hshut : q.backendLatched = true)
      (hpending : q.pending = front.toList) (hmarks : marks todo ⊆ [failed])
      (hfront : ∀ n ∈ front, (n, false) ∈ q.outcomes ∧ topRest todo = some (.popDone false))

variable {q : Queue} {k : Rest} {n : Nat} {ok : Bool} {rest pending : List Nat}

namespace Queue.Aligned

/-- Only the marks matter, and where a closing socket goes on. -/
theorem congr {todo' : List (Frame Rest)} (h : q.Aligned todo) (hsame : marks todo' = marks todo)
    (hback : q.latched = true → topRest todo' = topRest todo) : q.Aligned todo' := by
  cases h with
  | opened front hopen howned hmarks hpending hfront =>
    exact .opened front hopen howned (hsame.trans hmarks) hpending hfront
  | clearing pending others hlatched hempty htop hmarks hothers =>
    exact .clearing pending others hlatched hempty ((hback hlatched).trans htop)
      (hsame.trans hmarks) hothers
  | closed front hlatched hshut hpending hmarks hfront =>
    refine .closed front hlatched hshut hpending (hsame ▸ hmarks) fun n hn => ?_
    exact ⟨(hfront n hn).1, (hback hlatched).trans (hfront n hn).2⟩

/-- An open socket may hold what it goes on with in a frame. -/
theorem hold (h : q.Aligned todo) (hopen : q.latched = false) (after : After) :
    q.Aligned (.rest (.proceed after) :: todo) :=
  h.congr rfl fun hlatched => nomatch hopen.symm.trans hlatched

theorem owned (h : q.Aligned todo) (hshut : q.backendLatched = true) : q.latched = true := by
  cases h with
  | opened front hopen howned => exact nomatch howned.symm.trans hshut
  | clearing pending others hlatched => exact hlatched
  | closed front hlatched => exact hlatched

theorem resolve (h : q.Aligned todo) (p : Nat × Bool) :
    Aligned { q with outcomes := q.outcomes ++ [p] } todo := by
  cases h with
  | opened front hopen howned hmarks hpending hfront =>
    exact .opened front hopen howned hmarks hpending fun n hn => mem_append_left _ (hfront n hn)
  | clearing pending others hlatched hempty htop hmarks hothers =>
    exact .clearing pending others hlatched hempty htop hmarks hothers
  | closed front hlatched hshut hpending hmarks hfront =>
    refine .closed front hlatched hshut hpending hmarks fun n hn => ?_
    exact ⟨mem_append_left _ (hfront n hn).1, (hfront n hn).2⟩

theorem accept (h : q.Aligned todo) (hopen : q.latched = false) (n : Nat) :
    Aligned { q with pending := q.pending ++ [n], requests := q.requests ++ [n] } todo := by
  cases h with
  | opened front _ howned hmarks hpending hfront =>
    refine .opened front hopen howned hmarks ?_ hfront
    rw [hpending, append_assoc]
  | clearing pending others hlatched => exact nomatch hopen.symm.trans hlatched
  | closed front hlatched => exact nomatch hopen.symm.trans hlatched

section

variable (h : q.Aligned (.rest k :: todo)) (hk : marked (.rest k) = false)
include h hk

/-- Where a function that is not marked is resumed, a closing socket has done its closing. -/
theorem resumed : q.Aligned todo ∧
    (q.latched = true → q.pending = [] ∧ q.backendLatched = true ∧ marks todo ⊆ [failed]) := by
  have hsame : marks (.rest k :: todo) = marks todo := filter_cons_of_neg (Bool.eq_false_iff.mp hk)
  cases h with
  | opened front hopen howned hmarks hpending hfront =>
    refine ⟨.opened front hopen howned (hsame.symm.trans hmarks) hpending hfront, ?_⟩
    exact fun hlatched => nomatch hopen.symm.trans hlatched
  | clearing pending others _ _ htop =>
    cases htop
    cases hk
  | closed front hlatched hshut hpending hmarks hfront =>
    rw [hsame] at hmarks
    cases front with
    | none =>
      refine ⟨.closed none hlatched hshut hpending hmarks nofun, fun _ => ?_⟩
      exact ⟨hpending, hshut, hmarks⟩
    | some n =>
      cases (hfront n rfl).2
      cases hk

/-- It goes on with frames that are not marked either. -/
theorem replace (fs : List (Frame Rest)) (hfs : marks fs = []) : q.Aligned (fs ++ todo) := by
  obtain ⟨haligned, hclosed⟩ := h.resumed hk
  have hsame : marks (fs ++ todo) = marks todo := by
    rw [marks, filter_append]
    exact congrArg (· ++ marks todo) hfs
  cases hlatched : q.latched with
  | false => exact haligned.congr hsame fun hset => nomatch hlatched.symm.trans hset
  | true =>
    obtain ⟨hempty, hshut, hmarks⟩ := hclosed hlatched
    exact .closed none hlatched hshut hempty (hsame ▸ hmarks) nofun

theorem failAlone (hempty : q.pending = []) (hn : (n, false) ∈ q.outcomes) :
    Aligned { q with pending := q.pending ++ [n] } (.callback :: failed :: todo) := by
  obtain ⟨haligned, hclosed⟩ := h.resumed hk
  have hfront : ∀ m ∈ some n, (m, false) ∈ q.outcomes := fun m hm => Option.some.inj hm ▸ hn
  rw [hempty]
  rcases Bool.eq_false_or_eq_true q.latched with hlatched | hlatched
  · obtain ⟨-, hshut, hmarks⟩ := hclosed hlatched
    exact .closed (some n) hlatched hshut rfl (cons_subset.mpr ⟨mem_cons_self, hmarks⟩)
      fun m hm => ⟨hfront m hm, rfl⟩
  · cases haligned with
    | opened front _ howned hmarks hpending =>
      obtain ⟨hnone, hrequests⟩ := append_eq_nil_iff.mp (hpending.symm.trans hempty)
      rw [hnone] at hmarks
      exact .opened (some n) hlatched howned (congrArg (failed :: ·) hmarks)
        (congrArg (n :: ·) hrequests.symm) hfront
    | clearing pending others hset => exact nomatch hlatched.symm.trans hset
    | closed front hset => exact nomatch hlatched.symm.trans hset

end

/-- The front of the queue is the send that is being completed. -/
theorem popFront (h : q.Aligned (.rest (.popDone ok) :: todo)) (hpending : q.pending = n :: rest) :
    (n, ok) ∈ q.outcomes ∧ Aligned { q with pending := rest } (.callback :: todo) := by
  cases h with
  | opened front hopen howned hmarks hqueue hfront =>
    cases front with
    | none => cases hmarks
    | some m =>
      obtain ⟨hframe, hnone⟩ := cons.inj hmarks
      obtain ⟨rfl, rfl⟩ := cons.inj (hpending.symm.trans hqueue)
      cases hframe
      exact ⟨hfront n rfl, .opened none hopen howned hnone rfl nofun⟩
  | clearing pending others _ _ htop => cases htop
  | closed front hlatched hshut hqueue hmarks hfront =>
    cases front with
    | none => cases hpending.symm.trans hqueue
    | some m =>
      obtain ⟨rfl, rfl⟩ := cons.inj (hpending.symm.trans hqueue)
      cases (hfront n rfl).2
      exact ⟨(hfront n rfl).1,
        .closed none hlatched hshut rfl (cons_subset.mp hmarks).2 nofun⟩

/-- An empty queue is that of a closing socket; a completion finds nothing in it. -/
theorem popNothing (h : q.Aligned (.rest (.popDone ok) :: todo)) (hempty : q.pending = []) :
    q.Aligned todo := by
  cases h with
  | opened front _ _ hmarks hpending =>
    rw [(append_eq_nil_iff.mp (hpending.symm.trans hempty)).1] at hmarks
    cases hmarks
  | clearing pending others _ _ htop => cases htop
  | closed front hlatched hshut _ hmarks =>
    exact .closed none hlatched hshut hempty (cons_subset.mp hmarks).2 nofun

theorem close (h : q.Aligned todo) (hopen : q.latched = false) :
    Aligned { q with latched := true, pending := [] }
      (.rest (.discardSends q.pending) :: todo) := by
  cases h with
  | opened front _ _ hmarks =>
    refine .clearing q.pending (marks todo) rfl rfl rfl rfl ?_
    rw [hmarks]
    cases front with
    | none => exact nil_subset _
    | some n => exact List.Subset.refl _
  | clearing pending others hlatched => exact nomatch hopen.symm.trans hlatched
  | closed front hlatched => exact nomatch hopen.symm.trans hlatched

section

variable (h : q.Aligned (.rest (.discardSends pending) :: todo))
include h

/-- While the queue is discarded the socket is closing, and nothing is queued meanwhile. -/
theorem discarding : q.latched = true ∧ q.pending = [] ∧ marks todo ⊆ [failed] := by
  cases h with
  | opened front _ _ hmarks =>
    cases front with
    | none => cases hmarks
    | some n => cases (cons.inj hmarks).1
  | clearing pending others hlatched hempty _ hmarks hothers =>
    obtain ⟨-, rfl⟩ := cons.inj hmarks
    exact ⟨hlatched, hempty, hothers⟩
  | closed front _ _ _ hmarks => cases mem_singleton.mp (hmarks mem_cons_self)

theorem discardOne : q.Aligned (.callback :: .rest (.discardSends rest) :: todo) := by
  obtain ⟨hlatched, hempty, hmarks⟩ := h.discarding
  exact .clearing rest (marks todo) hlatched hempty rfl rfl hmarks

theorem closes : Aligned { q with pending := [], backendLatched := true } (.callback :: todo) := by
  obtain ⟨hlatched, -, hmarks⟩ := h.discarding
  exact .closed none hlatched rfl rfl hmarks nofun

end

/-- Where no function is running, the queue is the requests, or that of a closed socket. -/
theorem at_rest (h : q.Aligned []) :
    (q.latched = false ∧ q.backendLatched = false ∧ q.pending = q.requests) ∨
      (q.latched = true ∧ q.backendLatched = true ∧ q.pending = []) := by
  cases h with
  | opened front hopen howned hmarks hpending =>
    cases front with
    | none => exact .inl ⟨hopen, howned, hpending⟩
    | some n => cases hmarks
  | clearing pending others _ _ htop => cases htop
  | closed front hlatched hshut hpending _ hfront =>
    cases front with
    | none => exact .inr ⟨hlatched, hshut, hpending⟩
    | some n => cases (hfront n rfl).2

/-- libuv completes the oldest request; `send_done` is then on its way to the queue. -/
theorem completed (h : q.Aligned []) (hrequests : q.requests = n :: rest)
    (hn : (n, false) ∈ q.outcomes) : Aligned { q with requests := rest } [.callback, failed] := by
  rcases h.at_rest with ⟨hopen, howned, hpending⟩ | ⟨hlatched, hshut, hempty⟩
  · refine .opened (some n) hopen howned rfl (hpending.trans hrequests) fun m hm => ?_
    exact Option.some.inj hm ▸ hn
  · exact .closed none hlatched hshut hempty (List.Subset.refl _) nofun

/-- A request that succeeds is at the front of the queue, unless the socket is closed. -/
theorem succeeded (h : q.Aligned []) (hrequests : q.requests = n :: rest) :
    q.pending = n :: rest ∧ Aligned { q with requests := rest, pending := rest } [.callback]
      ∨ q.pending = [] ∧ Aligned { q with requests := rest } [] := by
  rcases h.at_rest with ⟨hopen, howned, hpending⟩ | ⟨hlatched, hshut, hempty⟩
  · exact .inl ⟨hpending.trans hrequests, .opened none hopen howned rfl rfl nofun⟩
  · exact .inr ⟨hempty, .closed none hlatched hshut hempty (nil_subset _) nofun⟩

end Queue.Aligned

namespace Account.Placed

variable {q : Account}

/-- Only the places of the callbacks matter, not the order of the frames. -/
theorem congr {todo' : List (Frame Rest)} (h : q.Placed todo)
    (hwaiting : (todo'.flatMap waiting).Perm (todo.flatMap waiting)) : q.Placed todo' :=
  { h with places := fun n => by rw [hwaiting.count_eq]; exact h.places n }

theorem resolve (h : q.Placed todo) (p : Nat × Bool) :
    Placed { q with outcomes := q.outcomes ++ [p] } todo :=
  { h with faithful := fun x hx => mem_append_left _ (h.faithful x hx) }

variable {frame : Frame Rest}

theorem called (h : q.Placed todo) (hframe : waiting frame = [q.sends]) :
    Placed { q with sends := q.sends + 1 } (frame :: todo) where
  places m := by
    have hm := h.places m
    grind
  faithful := h.faithful

theorem invoke (h : q.Placed (frame :: todo)) (fs : List (Frame Rest)) {held : List Nat}
    (hframe : waiting frame = n :: held) (hfs : fs.flatMap waiting = held)
    (hn : (n, ok) ∈ q.outcomes) :
    Placed { q with done := q.done ++ [(n, ok)] } (fs ++ todo) where
  places m := by
    have hm := h.places m
    simp only [flatMap_cons, flatMap_append, hframe, hfs, count_append,
      map_append, map_cons, map_nil, count_cons, count_nil] at hm ⊢
    omega
  faithful := forall_mem_append.mpr ⟨h.faithful, forall_mem_singleton.mpr hn⟩

theorem enqueue (h : q.Placed (frame :: todo)) (fs : List (Frame Rest))
    (hframe : waiting frame = [n]) (hfs : fs.flatMap waiting = []) :
    Placed { q with pending := q.pending ++ [n] } (fs ++ todo) where
  places m := by
    have hm := h.places m
    simp only [flatMap_cons, flatMap_append, hframe, hfs, count_append,
      count_cons, count_nil] at hm ⊢
    omega
  faithful := h.faithful

theorem popFront (h : q.Placed todo) {rest : List Nat} (hpending : q.pending = n :: rest)
    (hn : (n, ok) ∈ q.outcomes) :
    Placed { q with pending := rest, done := q.done ++ [(n, ok)] } todo where
  places m := by
    have hm := h.places m
    simp only [hpending, count_append, map_append, map_cons, map_nil, count_cons, count_nil] at hm ⊢
    omega
  faithful := forall_mem_append.mpr ⟨h.faithful, forall_mem_singleton.mpr hn⟩

theorem close (h : q.Placed todo) :
    Placed { q with pending := [] } (.rest (.discardSends q.pending) :: todo) where
  places m := by
    have hm := h.places m
    simp only [flatMap_cons, waiting, count_append, count_nil] at hm ⊢
    omega
  faithful := h.faithful

end Account.Placed

/-! ### The functions of the socket -/

/-- A bind that goes on to mark the socket bound or to use it. -/
def proceeds : Frame Rest → Bool
  | .rest (.markBound _) | .rest (.proceed _) => true
  | _ => false

/-- A bound socket has a handle until it is closed, and a pinned peer has an address. -/
structure Ready (parses : String → Bool) (s : State) (todo : List (Frame Rest)) : Prop where
  handle : s.mState = .kBound ∨ s.mState = .kConnected ∨ todo.any proceeds = true →
    s.mBackend.mHandle = true ∨ s.mCloseRequested = true
  peer : s.mState = .kConnected → parses s.mPeerIp = true

structure Kept (parses : String → Bool) (s : State) (todo : List (Frame Rest)) : Prop where
  placed : s.account.Placed todo
  aligned : s.account.Aligned todo
  ready : Ready parses s todo

theorem Ready.push (h : Ready parses s todo) (fs : List (Frame Rest))
    (hfs : fs.any proceeds = false) : Ready parses s (fs ++ todo) :=
  { h with handle := by rw [any_append, hfs]; exact h.handle }

theorem Ready.pop {frame : Frame Rest} (h : Ready parses s (frame :: todo)) :
    Ready parses s todo := by
  refine { h with handle := fun hcase => h.handle ?_ }
  rw [any_cons]
  exact hcase.imp_right fun hrest => hrest.imp_right fun hany => by rw [hany, Bool.or_true]

/-- A function that leaves the sends alone calls back. -/
theorem Kept.push {s' : State} (h : Kept parses s todo) (haccount : s'.account = s.account)
    (hready : Ready parses s' todo) : Kept parses s' (.callback :: todo) where
  placed := by rw [haccount]; exact { h.placed with }
  aligned := by rw [haccount]; exact h.aligned.congr rfl fun _ => rfl
  ready := hready.push [.callback] rfl

/-- An interrupted function that leaves the sends alone goes on. -/
theorem Kept.replace {s' : State} (h : Kept parses s (.rest k :: todo))
    (hk : marked (.rest k) = false) (fs : List (Frame Rest)) (hfs : marks fs = [])
    (hwaiting : fs.flatMap waiting = waiting (.rest k)) (haccount : s'.account = s.account)
    (hready : Ready parses s' (fs ++ todo)) : Kept parses s' (fs ++ todo) where
  placed := by
    rw [haccount]
    refine h.placed.congr ?_
    rw [flatMap_append, hwaiting, flatMap_cons]
  aligned := by rw [haccount]; exact h.aligned.replace hk fs hfs
  ready := hready

namespace State

variable {answer : Answer} {ip : String} {port : UInt16} {after : After}

theorem submit_kept {send : Send} (h : Kept parses s (.rest (.proceed (.submit send)) :: todo))
    (horderly : s.mBackend.mCloseRequested = false → s.Submits parses answer send.ip) :
    (s.submit parses answer send).Leaves (Kept parses) todo := by
  obtain ⟨haligned, hclosed⟩ := h.aligned.resumed rfl
  have hready := h.ready.pop
  -- a send that fails does so alone in the queue
  have hfail : ∀ status, s.mPendingSendDones = [] →
      Kept parses (sendDone false (({ s with
        mPendingSendDones := s.mPendingSendDones ++ [send.number] }.setStatus status).resolve
          send.number false)).1 ([.callback, failed] ++ todo) := by
    intro status hempty
    refine ⟨?_, ?_, ?_⟩
    · exact { (h.placed.enqueue [.callback, failed] rfl rfl).resolve (send.number, false) with }
    · exact (h.aligned.resolve (send.number, false)).failAlone rfl hempty (by simp)
    · exact { hready.push [.callback, failed] rfl with }
  unfold submit backendSendTo
  split_ifs with hshut hparses hsend
  · refine hfail _ ?_
    have hlatched : s.mCloseRequested = true := by
      rcases hshut with hbackend | hhandle
      · exact h.aligned.owned hbackend
      · refine (h.ready.handle (.inr (.inr rfl))).resolve_left fun hset => ?_
        exact nomatch hhandle.symm.trans hset
    exact (hclosed hlatched).1
  · have hopen : s.mBackend.mCloseRequested = false := by simp_all
    exact nomatch hparses.symm.trans (horderly hopen).1
  · have hopen : s.mBackend.mCloseRequested = false := by simp_all
    exact hfail _ ((horderly hopen).2 hsend)
  · have hopen : s.mBackend.mCloseRequested = false := by simp_all
    have hlatched : s.mCloseRequested = false := by
      by_contra hset
      have hbackend := (hclosed (eq_true_of_ne_false hset)).2.1
      exact nomatch hopen.symm.trans hbackend
    refine ⟨?_, haligned.accept hlatched send.number, { hready with }⟩
    exact { h.placed.enqueue [] rfl rfl with }

/-- The callback that is invoked from the call, or by an interrupted one. -/
theorem rejectSend_placed {frame : Frame Rest} (fs : List (Frame Rest)) {held : List Nat}
    (h : s.account.Placed (frame :: todo)) (hframe : waiting frame = n :: held)
    (hfs : fs.flatMap waiting = held) : (s.rejectSend n).1.account.Placed (fs ++ todo) := by
  have hn : (n, false) ∈ s.outcomes ++ [(n, false)] := by simp
  exact { (h.resolve (n, false)).invoke fs hframe hfs hn with }

theorem connectPeer_ready
    (h : Ready parses s todo) : Ready parses (s.connectPeer parses answer ip port).1 todo := by
  unfold connectPeer
  split_ifs with hshut hparses hconnect
  · exact { h with }
  · exact { h with }
  · exact { h with }
  · have hhandle : s.mBackend.mHandle = true := by simp_all
    exact ⟨fun _ => .inl hhandle, fun _ => eq_true_of_ne_false hparses⟩

theorem connectPeer_account : (s.connectPeer parses answer ip port).1.account = s.account
      ∧ (s.connectPeer parses answer ip port).2 = [.callback] := by
  unfold connectPeer
  split_ifs <;> exact ⟨rfl, rfl⟩

section

variable (hplaced : s.account.Placed (.rest (.proceed after) :: todo))
include hplaced

variable (haligned : s.account.Aligned (.rest (.proceed after) :: todo))
include haligned

/-- What a bind goes on with is held by the function that binds. -/
theorem markBound_kept (hhandle : s.mBackend.mHandle = true ∨ s.mCloseRequested = true) :
    (s.markBound after).Leaves (Kept parses) todo where
  placed := { hplaced with }
  aligned := haligned.replace rfl [.callback, .rest (.proceed after)] rfl
  ready := ⟨fun _ => hhandle, nofun⟩

theorem bindFailed_kept (hready : Ready parses s todo) :
    (s.bindFailed after).Leaves (Kept parses) todo := by
  cases after with
  | submit send =>
    exact ⟨{ hplaced with }, haligned.replace rfl [.callback, .rest (.rejectSend send.number)] rfl,
      { hready.push [.callback, .rest (.rejectSend send.number)] rfl with }⟩
  | connect ip port | done =>
    exact ⟨{ hplaced with }, haligned.replace rfl [.callback] rfl,
      { hready.push [.callback] rfl with }⟩

theorem backendBind_kept (hready : Ready parses s todo)
    (h : s.backendBind parses answer ip after = some r) : r.Leaves (Kept parses) todo := by
  unfold backendBind at h
  split_ifs at h
  · cases h
    exact bindFailed_kept hplaced haligned hready
  · cases h
    exact bindFailed_kept { hplaced with } haligned { hready with }
  · cases h
    exact bindFailed_kept { hplaced with } haligned { hready with }
  · cases h
    unfold bindSucceeded
    split_ifs
    · exact markBound_kept { hplaced with } haligned (.inl rfl)
    · refine ⟨?_, haligned.replace rfl [.callback, .rest (.markBound after)] rfl,
        ⟨fun _ => .inl rfl, hready.peer⟩⟩
      refine { hplaced.congr ?_ with }
      cases after <;> exact List.Perm.refl _
    · exact markBound_kept { hplaced with } haligned (.inl rfl)

end

theorem popDone_of_nil (h : s.mPendingSendDones = []) : s.popDone ok = (s, []) := by
  rw [popDone, h]

theorem popDone_of_cons {rest : List Nat} (h : s.mPendingSendDones = n :: rest) :
    s.popDone ok = invokeDone n ok { s with mPendingSendDones := rest } := by
  rw [popDone, h]

theorem popDone_kept (h : Kept parses s (.rest (.popDone ok) :: todo)) :
    (s.popDone ok).Leaves (Kept parses) todo := by
  cases hpending : s.mPendingSendDones with
  | nil =>
    rw [popDone_of_nil hpending]
    exact ⟨{ h.placed with }, h.aligned.popNothing hpending, h.ready.pop⟩
  | cons number rest =>
    rw [popDone_of_cons hpending]
    obtain ⟨hmem, haligned⟩ := h.aligned.popFront hpending
    exact ⟨{ h.placed.popFront hpending hmem with }, haligned,
      { h.ready.pop.push [.callback] rfl with }⟩

theorem discardSends_kept (h : Kept parses s (.rest (.discardSends pending) :: todo)) :
    (s.discardSends pending).Leaves (Kept parses) todo := by
  cases pending with
  | nil =>
    obtain ⟨hlatched, hempty, -⟩ := h.aligned.discarding
    refine ⟨?_, h.aligned.closes, ⟨fun _ => .inr hlatched, nofun⟩⟩
    have hplaced := h.placed.places
    rw [hempty] at hplaced
    exact ⟨hplaced, h.placed.faithful⟩
  | cons number rest =>
    refine ⟨?_, ?_, ?_⟩
    · exact rejectSend_placed [.callback, .rest (.discardSends rest)] h.placed rfl
        (append_nil rest)
    · exact (h.aligned.resolve (number, false)).discardOne
    · exact { h.ready.pop.push [.callback, .rest (.discardSends rest)] rfl with }

section

variable (h : Kept parses s todo) {data : List UInt8}

include h

theorem beginClose_kept : s.beginClose.Leaves (Kept parses) todo := by
  unfold beginClose
  split_ifs with hclosing
  · exact h
  · refine ⟨{ h.placed.close with }, h.aligned.close (eq_false_of_ne_true hclosing), ?_⟩
    exact ⟨fun _ => .inr rfl, h.ready.peer⟩

/-! ### Every call -/

theorem sendTo_kept
    (horderly : s.mState = .kBound → s.mCloseRequested = false → s.Submits parses answer ip)
    (hcall : s.sendTo parses answer data ip port = some r) : r.Leaves (Kept parses) todo := by
  unfold sendTo at hcall
  dsimp only at hcall
  have hplaced : ({ s with sends := s.sends + 1 }).account.Placed
      (.rest (.proceed (.submit ⟨s.sends, ip, port, data⟩)) :: todo) := h.placed.called rfl
  split_ifs at hcall with hclosed hidle hbound
  · cases hcall
    refine ⟨rejectSend_placed [.callback] hplaced rfl rfl, ?_, ?_⟩
    · exact (h.aligned.resolve (s.sends, false)).congr rfl fun _ => rfl
    · exact { h.ready.push [.callback] rfl with }
  · have hopen : s.mCloseRequested = false := by simp_all
    exact backendBind_kept hplaced (h.aligned.hold hopen _) { h.ready with } hcall
  · cases hcall
    have hopen : s.mCloseRequested = false := by simp_all
    have hhandle := h.ready.handle (.inl hbound)
    exact submit_kept ⟨hplaced, h.aligned.hold hopen _, ⟨fun _ => hhandle, h.ready.peer⟩⟩
      fun _ => horderly hbound hopen

theorem send_kept (hopen : s.mCloseRequested = false)
    (hsend : answer.send ≠ 0 → s.mPendingSendDones = [])
    (hcall : s.send parses answer data = some r) : r.Leaves (Kept parses) todo := by
  unfold send at hcall
  split_ifs at hcall with hconnected
  cases hcall
  have hhandle := h.ready.handle (.inr (.inl hconnected))
  refine submit_kept ⟨h.placed.called rfl, h.aligned.hold hopen _, ?_⟩
    fun _ => ⟨h.ready.peer hconnected, hsend⟩
  exact ⟨fun _ => hhandle, h.ready.peer⟩

theorem connectTo_kept
    (hcall : s.connectTo parses answer ip port = some r) : r.Leaves (Kept parses) todo := by
  unfold connectTo at hcall
  split_ifs at hcall with hclosing hidle hbound
  · have hopen := eq_false_of_ne_true hclosing
    exact backendBind_kept { h.placed with } (h.aligned.hold hopen _) h.ready hcall
  · cases hcall
    rw [Outcome.Leaves, connectPeer_account.2]
    exact h.push connectPeer_account.1 (connectPeer_ready h.ready)

theorem disconnectRemote_kept (hcall : s.disconnectRemote = some r) :
    r.Leaves (Kept parses) todo := by
  unfold disconnectRemote at hcall
  split_ifs at hcall with hconnected
  cases hcall
  have hhandle := h.ready.handle (.inr (.inl hconnected))
  exact h.push rfl ⟨fun _ => hhandle, nofun⟩

theorem bind_kept (hcall : s.bind parses answer ip = some r) : r.Leaves (Kept parses) todo := by
  unfold bind at hcall
  split_ifs at hcall with hclosing hidle
  have hopen := eq_false_of_ne_true hclosing
  exact backendBind_kept { h.placed with } (h.aligned.hold hopen _) h.ready hcall

theorem setBroadcast_kept {enable : Bool} :
    (s.setBroadcast answer enable).Leaves (Kept parses) todo := by
  unfold setBroadcast
  split_ifs
  · exact h
  · exact ⟨{ h.placed with }, h.aligned, { h.ready with }⟩
  · exact h.push rfl { h.ready with }
  · exact h.push rfl { h.ready with }
  · exact ⟨{ h.placed with }, h.aligned, { h.ready with }⟩

end

/-! ### The trampolines -/

theorem onSendDone_kept {status : Int} (h : Kept parses s [])
    (hevent : s.onSendDone status = some r) : Kept parses r.1 r.2 := by
  unfold onSendDone at hevent
  split at hevent
  · cases hevent
  next number rest hrequests =>
    cases hevent
    have hmem : (number, decide (status = 0)) ∈ s.outcomes ++ [(number, decide (status = 0))] :=
      by simp
    have hplaced := h.placed.resolve (number, decide (status = 0))
    have haligned := h.aligned.resolve (number, decide (status = 0))
    by_cases hstatus : status = 0
    · -- a completion goes to the front of the queue at once
      simp only [hstatus, decide_true] at hmem hplaced haligned ⊢
      let t := resolve number true (setStatus 0 { s with requests := rest })
      rcases haligned.succeeded hrequests with ⟨hpending, hrest⟩ | ⟨hempty, hrest⟩
      · rw [sendDone, popDone_of_cons (s := t) hpending]
        exact ⟨{ hplaced.popFront hpending hmem with }, hrest,
          { h.ready.push [.callback] rfl with }⟩
      · rw [sendDone, popDone_of_nil (s := t) hempty]
        exact ⟨{ hplaced with }, hrest, { h.ready with }⟩
    · simp only [hstatus, decide_false] at hmem hplaced haligned ⊢
      exact ⟨{ hplaced with }, haligned.completed hrequests hmem,
        { h.ready.push [.callback, failed] rfl with }⟩

theorem onClosed_kept (h : Kept parses s []) (hevent : s.onClosed = some r) :
    Kept parses r.1 r.2 := by
  unfold onClosed at hevent
  split_ifs at hevent with hclosing
  cases hevent
  exact ⟨{ h.placed with }, h.aligned,
    ⟨fun _ => .inr (h.aligned.owned hclosing.1), h.ready.peer⟩⟩

end State

/-! ### Every run -/

theorem Kept.call {a : Call × Answer} (h : Kept parses s todo)
    (horderly : Orderly parses ⟨s, todo⟩ (.call a)) (hcall : call parses s a = some r) :
    r.Leaves (Kept parses) todo := by
  obtain ⟨a, answer⟩ := a
  cases a with
  | sendTo data ip port => exact sendTo_kept h horderly hcall
  | send data => exact send_kept h horderly.1 horderly.2 hcall
  | connectTo ip port => exact connectTo_kept h hcall
  | disconnectRemote => exact disconnectRemote_kept h hcall
  | bind ip => exact bind_kept h hcall
  | setBroadcast enable =>
    cases hcall
    exact setBroadcast_kept h
  | close =>
    cases hcall
    exact beginClose_kept h

theorem Kept.resume {answer : Answer} (h : Kept parses s (.rest k :: todo))
    (horderly : Orderly parses ⟨s, .rest k :: todo⟩ (.resume answer)) :
    (resume parses s k answer).Leaves (Kept parses) todo := by
  cases k with
  | markBound after =>
    refine markBound_kept (h.placed.congr ?_) (h.aligned.replace rfl [_] rfl)
      (h.ready.handle (.inr (.inr rfl)))
    cases after <;> exact List.Perm.refl _
  | proceed after =>
    cases after with
    | submit send => exact submit_kept h (horderly send todo rfl)
    | connect ip port =>
      change (s.connectPeer parses answer ip port).Leaves (Kept parses) todo
      rw [Outcome.Leaves, connectPeer_account.2]
      exact h.replace rfl [.callback] rfl rfl connectPeer_account.1
        ((connectPeer_ready h.ready.pop).push [.callback] rfl)
    | done => exact h.replace rfl [] rfl rfl rfl h.ready.pop
  | rejectSend number =>
    refine ⟨rejectSend_placed [.callback] h.placed rfl rfl, ?_, ?_⟩
    · exact (h.aligned.resolve (number, false)).replace rfl [.callback] rfl
    · exact { h.ready.pop.push [.callback] rfl with }
  | popDone ok => exact popDone_kept h
  | discardSends pending => exact discardSends_kept h

theorem Kept.step {c d : Config State Rest} {a : Label (Call × Answer) Answer Event}
    (h : Kept parses c.store c.todo) (horderly : Orderly parses c a)
    (hstep : (program parses).step c a = some d) : Kept parses d.store d.todo := by
  cases Program.step_effect hstep with
  | call s todo a r _ hcall => exact h.call horderly hcall
  | ret s todo => exact ⟨{ h.placed with }, h.aligned.congr rfl fun _ => rfl, h.ready.pop⟩
  | resume s k todo answer r hresume =>
    cases hresume
    exact h.resume horderly
  | event s e r hevent =>
    cases e with
    | onSendDone status => exact onSendDone_kept h hevent
    | onClosed => exact onClosed_kept h hevent

theorem Kept.settled {c : Config State Rest} (h : Kept parses c.store c.todo) : SendsSettled c where
  once n := by
    have hplaces : (c.store.done.map Prod.fst).count n + c.store.mPendingSendDones.count n
      + (c.todo.flatMap waiting).count n = if n < c.store.sends then 1 else 0 := h.placed.places n
    split_ifs at hplaces <;> omega
  faithful := h.placed.faithful
  invoked hrest hrequests n hn := by
    have hempty : c.store.mPendingSendDones = [] := by
      have haligned := h.aligned
      rw [hrest] at haligned
      rcases haligned.at_rest with ⟨-, -, hpending⟩ | ⟨-, -, hempty⟩
      · exact hpending.trans hrequests
      · exact hempty
    have hplaces := h.placed.places n
    rw [hrest] at hplaces
    change (c.store.done.map Prod.fst).count n + c.store.mPendingSendDones.count n + 0
      = if n < c.store.sends then 1 else 0 at hplaces
    rw [hempty, if_pos hn] at hplaces
    exact hplaces

/-- **Sends are settled**, in every run of sends, binds, completions and closes whose submissions
meet the condition: the queue of callbacks then stays aligned with the requests of libuv, and each
completion pops the callback of its own send. -/
theorem sends_settled (parses : String → Bool) (run : List (Label (Call × Answer) Answer Event))
    (horderly : (program parses).machine.Meets (Orderly parses) (program parses).machine.init run) :
    (program parses).machine.Always SendsSettled (program parses).machine.init run := by
  have hinit : Kept parses {} [] := by
    refine ⟨⟨fun n => ?_, nofun⟩, ?_, ?_⟩
    · simp [account]
    · exact .opened none rfl rfl rfl rfl nofun
    · constructor <;> simp
  exact (Machine.always_of_meets (I := fun c : Config State Rest => Kept parses c.store c.todo)
    (fun _ _ _ h hc hstep => h.step hc hstep) hinit horderly).mono fun _ h => h.settled

/-- A socket bound by its first send; a second one is in flight when libuv fails the first. -/
theorem sends_settled_two_sends :
    (program (fun _ => true)).machine.Always SendsSettled (program (fun _ => true)).machine.init
      [.call (.sendTo [1] "10.0.0.2" 7, {}), .ret, .resume {}, .call (.sendTo [2] "10.0.0.3" 7, {}),
        .event (.onSendDone (-1)), .ret, .resume {}, .ret, .event (.onSendDone 0), .ret] := by
  apply sends_settled
  rintro c₁ ⟨⟩
  refine ⟨nofun, ?_⟩
  rintro c₂ ⟨⟩
  refine ⟨trivial, ?_⟩
  rintro c₃ ⟨⟩
  refine ⟨fun _ _ _ _ => ⟨rfl, absurd rfl⟩, ?_⟩
  rintro c₄ ⟨⟩
  refine ⟨fun _ _ => ⟨rfl, absurd rfl⟩, ?_⟩
  rintro c₅ ⟨⟩
  refine ⟨trivial, ?_⟩
  rintro c₆ ⟨⟩
  refine ⟨trivial, ?_⟩
  rintro c₇ ⟨⟩
  refine ⟨nofun, ?_⟩
  iterate 3
    rintro _ ⟨⟩
    refine ⟨trivial, ?_⟩
  trivial

/-- A send to an address that does not parse returns without its callback. -/
theorem unparsable_address_silent : ∃ c : Config State Rest,
    (program (fun ip => ip == "0.0.0.0")).machine.run
      (program (fun ip => ip == "0.0.0.0")).machine.init
      [.call (.bind "0.0.0.0", {}), .ret, .resume {}, .call (.sendTo [1] "localhost" 7, {})]
        = some c ∧ ¬ SendsSettled c := by
  refine ⟨_, rfl, fun h => ?_⟩
  have hinvoked : 0 = 1 := h.invoked rfl rfl 0 (by decide)
  cases hinvoked

end CxxKit.UdpSocket
