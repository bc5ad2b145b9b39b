import CxxKit.Network.TlsHandshaking

/-!
The callback of `connect_tls` and `start_tls`.

It is delivered by `drive_handshake`, by `finish_error` and by the callback of
the transport's connect, each guarded by flags of its own, but not by
`begin_close`.  A socket that is closed while the handshake waits for its peer
never delivers it.
-/

namespace CxxKit.TlsSocket

open CxxKit.Network List Option Reentrant State Transition

/-- The callback is invoked once at most, with what became of the handshake, and a closed
socket has invoked it. -/
structure EntrySettled (c : Config State Rest) : Prop where
  once : ∀ n, (c.store.connected.map Prod.fst).count n ≤ 1
  outcome : ∀ n ok, (n, ok) ∈ c.store.connected → ok = c.store.completed
  settled : c.store.mState = .kClosed → ∀ n < c.store.entries,
    (c.store.connected.map Prod.fst).count n = 1

/-- The condition on the steps that enter `begin_close`, and on those of
`mbedtls_ssl_handshake`. -/
def Patient (c : Config State Rest) : Label Call Answer Event → Prop
  | .call .close => c.store.MayClose
  | .resume answer =>
    (∀ todo, c.todo = .rest .beginClose :: todo → c.store.MayClose)
      ∧ ∀ todo, c.todo = .rest .inHandshake :: todo → c.store.Accepts answer
  | _ => True

variable {s : State} {r : Step} {todo : List (Frame Rest)} {answer : Answer} {k : Rest} {ok : Bool}

/-! ### Before the handshake -/

variable {frame : Frame Rest}

theorem calm_cases (h : calm frame = true) : mild frame = true ∧ shutting frame = false := by
  unfold calm at h
  split at h <;> first | exact ⟨rfl, rfl⟩ | cases h

theorem shutting_cases (h : shutting frame = true) :
    reserved frame = false ∧ kindling frame = false := by
  unfold shutting at h
  split at h <;> first | exact ⟨rfl, rfl⟩ | cases h

/-- Calm frames are no part of the account. -/
theorem not_reserved_of_calm (h : calm frame = true) :
    reserved frame = false ∧ kindling frame = false := by
  obtain ⟨hkindling, -, -, hreserved, -⟩ := mild_cases (calm_cases h).1
  exact ⟨hreserved, hkindling⟩

theorem State.pumpPlaintext_of_ne (h : s.mState ≠ .kConnected) :
    s.pumpPlaintext = some (s, []) := by
  rw [pumpPlaintext, if_neg fun hcase => h hcase.2.1]

/-- A calm function that is resumed before the handshake has nothing to do. -/
theorem resume_of_calm (hk : calm (.rest k) = true) (hstate : s.mState ≠ .kConnected)
    (hresume : resume s k answer = some r) : r = (s, []) := by
  cases k with
  | pumpPlaintext =>
    change s.pumpPlaintext = some r at hresume
    rw [pumpPlaintext_of_ne hstate] at hresume
    exact Option.some.inj hresume.symm
  | _ => cases hk

/-- Before the handshake, the transport can only complete a connect. -/
theorem State.Unbegun.event {e : Event} (h : s.Unbegun) (hevent : event s e = some r) :
    ∃ ok, e = .onConnectDone ok := by
  have hbridged := h.bridged
  have hnotifying := h.notifying
  cases e with
  | onConnectDone ok => exact ⟨ok, rfl⟩
  | onWriteDone ok =>
    rcases onWriteDone_cases hevent with ⟨hset, -⟩ | ⟨u, hset, -⟩
    · exact nomatch hbridged.symm.trans hset
    · exact nomatch hnotifying.symm.trans hset
  | onRead bytes =>
    exact nomatch hbridged.symm.trans (onRead_apart hevent).1
  | onReadFailed =>
    exact nomatch hbridged.symm.trans (onReadFailed_apart hevent).1

/-- A step that leaves the callback and the transport alone. -/
theorem State.Unbegun.of_eq {u : State} (h : s.Unbegun) (hentry : u.entry = s.entry)
    (htransport : u.mTransport = s.mTransport) : u.Unbegun where
  done := (congrArg Entry.mDone hentry).trans h.done
  ready := (congrArg Entry.mSslReady hentry).trans h.ready
  bridged := by
    unfold State.bridged
    rw [htransport]
    exact h.bridged
  notifying := by
    unfold State.notifying
    rw [htransport]
    exact h.notifying
  completed := (congrArg Entry.completed hentry).trans h.completed

/-- Calls while the transport connects: only `close` does more than set a field. -/
theorem call_before {a : Call} (hstarted : s.mState ≠ .kIdle) (hstate : s.mState ≠ .kConnected)
    (hclose : a ≠ .close) (hcall : call s a = some r) :
    r.1.entry = s.entry ∧ r.1.mTransport = s.mTransport ∧ ∀ frame ∈ r.2, calm frame = true := by
  obtain ⟨hentry, htransport, hframes⟩ := call_started hstarted hclose hcall
  refine ⟨hentry, htransport, fun frame hmem => ?_⟩
  rcases hframes frame hmem with rfl | ⟨hconnected, -⟩
  · rfl
  · exact absurd hconnected hstate

namespace Idle

section

variable (h : Idle s todo)

include h

theorem setTransport {connected closed : Bool}
    (hcall : s.setTransport connected closed = some r) : r.Leaves Idle todo := by
  rw [State.setTransport, if_pos h.state] at hcall
  cases hcall
  refine { h with unbegun := { h.unbegun with bridged := ?_, notifying := ?_ }, linked := ?_ }
  · simp [bridged]
  · simp [notifying]
  · simp [connecting]

theorem connectTls (hcall : s.connectTls = some r) : r.Leaves Dialling todo := by
  unfold State.connectTls at hcall
  split_ifs at hcall
  cases hcall
  have hentered : s.entries = 0 := h.entered
  refine ⟨rfl, ⟨?_, ?_, h.undelivered⟩, ⟨rfl, h.unbegun.ready, ?_, ?_, h.unbegun.completed⟩,
    h.unlatched, ?_, [.callback], todo, rfl, ?_, h.frames⟩
  · change some s.entries = some 0
    rw [hentered]
  · change s.entries + 1 = 1
    rw [hentered]
  · rfl
  · rfl
  · rfl
  · exact forall_mem_singleton.mpr rfl

theorem startTls (hcall : s.startTls = some r) : Handshaking r.1.entry (r.2 ++ todo) := by
  unfold State.startTls at hcall
  split_ifs at hcall
  cases hcall
  have hentered : s.entries = 0 := h.entered
  have hcompleted : s.completed = false := h.unbegun.completed
  refine ⟨nofun, nofun, ⟨?_, ?_, h.undelivered⟩, h.unlatched, h.linked, fun hset => ?_, ?_⟩
  · change some s.entries = some 0
    rw [hentered]
  · change s.entries + 1 = 1
    rw [hentered]
  · exact nomatch hcompleted.symm.trans hset
  · refine forall_mem_cons.mpr ⟨rfl, forall_mem_cons.mpr ⟨rfl,
      forall_mem_cons.mpr ⟨rfl, fun frame hmem => ?_⟩⟩⟩
    exact live_of_mild (calm_cases (h.frames frame hmem)).1

/-- A socket that is closed before it is used has no callback to deliver. -/
theorem finished {state : SocketState} (hstate : state ≠ .kIdle) :
    Finished { s with mState := state } todo := by
  have hentered : s.entries = 0 := h.entered
  have hundelivered : s.connected = [] := h.undelivered
  refine ⟨⟨hstate, h.callback, fun n => ?_, fun n ok hmem => ?_, h.linked, fun hset => ?_,
    fun frame hmem => (not_reserved_of_calm (h.frames frame hmem)).1⟩, .inr ⟨h.unbegun.ready,
    h.unbegun.bridged, fun frame hmem => (not_reserved_of_calm (h.frames frame hmem)).2⟩⟩
  · simp [entry, hentered, hundelivered]
  · simp [entry, hundelivered] at hmem
  · have hcompleted : s.completed = false := h.unbegun.completed
    exact Bool.noConfusion (hcompleted.symm.trans hset)

theorem close : s.close.Leaves Finished todo := by
  have hopen : ¬ (s.mState = .kClosed ∨ s.mCloseRequested = true) := by
    simp [h.state, h.unlatched]
  rw [State.close, if_neg hopen, State.beginClose, if_neg fun hset => hopen (.inr hset),
    if_neg fun hset => hopen (.inl hset)]
  have hbase : Finished { s with mState := .kClosing } todo := h.finished nofun
  have hlatched : Finished { s with mState := .kClosing, mCloseRequested := true } todo :=
    ⟨{ hbase.past with }, hbase.dead⟩
  refine hlatched.push [.callback, .rest .closeNotify] ?_
  exact forall_mem_cons.mpr ⟨⟨rfl, rfl⟩, forall_mem_singleton.mpr ⟨rfl, rfl⟩⟩

theorem call {a : Call} (hcall : call s a = some r) : r.Leaves Phase todo := by
  cases a with
  | setVerifyMode mode | setCaPath path | setCertificate path | setPrivateKey path | readStop =>
    cases hcall
    exact .idle { h with unbegun := { h.unbegun with } }
  | setTransport connected closed => exact .idle (h.setTransport hcall)
  | connectTls => exact .dialling (h.connectTls hcall)
  | startTls => exact .handshaking (h.startTls hcall)
  | write data =>
    change s.write data = some r at hcall
    rw [write, if_neg (by simp [h.state])] at hcall
    cases hcall
  | readStart =>
    cases hcall
    exact .idle { h with
      unbegun := { h.unbegun with }
      frames := forall_mem_cons.mpr ⟨rfl, h.frames⟩ }
  | close =>
    cases hcall
    exact .finished h.close

end

end Idle

namespace Dialling

theorem not_closable (h : Dialling s todo) (hclose : s.MayClose) : False := by
  have hcallback : s.mOnConnected = some 0 := h.pending.callback
  have hconnecting := hclose h.unlatched (by rw [hcallback]; rfl)
  exact nomatch h.linked.symm.trans hconnecting

theorem call {a : Call} (h : Dialling s todo) (hclose : a = .close → s.MayClose)
    (hcall : call s a = some r) : r.Leaves Dialling todo := by
  have hne : a ≠ .close := fun heq => h.not_closable (hclose heq)
  obtain ⟨hentry, htransport, hframes⟩ :=
    call_before (by simp [h.state]) (by simp [h.state]) hne hcall
  obtain ⟨above, below, rfl, habove, hbelow⟩ := h.frames
  refine ⟨(congrArg Entry.mState hentry).trans h.state, hentry ▸ h.pending,
    h.unbegun.of_eq hentry htransport, (congrArg Entry.latched hentry).trans h.unlatched,
    (congrArg Entry.connecting hentry).trans h.linked, r.2 ++ above, below,
    (append_assoc _ _ _).symm, forall_mem_append.mpr ⟨hframes, habove⟩, hbelow⟩

theorem pop {frame : Frame Rest} (h : Dialling s (frame :: todo))
    (hframe : frame ≠ .rest .transportConnect) : Dialling s todo := by
  obtain ⟨above, below, htodo, habove, hbelow⟩ := h.frames
  cases above with
  | nil =>
    exact absurd (cons.inj htodo).1 hframe
  | cons first above =>
    refine { h with frames := ⟨above, below, (cons.inj htodo).2, ?_, hbelow⟩ }
    exact fun frame hmem => habove frame (mem_cons_of_mem _ hmem)

/-- The transport connects, or fails inside the call. -/
theorem transportConnect (h : Dialling s (.rest .transportConnect :: todo))
    (hresume : s.transportConnect answer = some r) : r.Leaves Phase todo := by
  obtain ⟨above, below, htodo, habove, hbelow⟩ := h.frames
  obtain rfl : todo = below := by
    cases above with
    | nil => exact (cons.inj htodo).2
    | cons first above =>
      have hfirst := habove _ mem_cons_self
      rw [← (cons.inj htodo).1] at hfirst
      cases hfirst
  unfold State.transportConnect at hresume
  split at hresume
  · cases hresume
  next t ht =>
    split_ifs at hresume with hused hfailed
    · cases hresume
      unfold connectFailed
      rw [Outcome.leaves_andThen, Outcome.leaves_andThen]
      have hcompleted := h.unbegun.completed
      refine .finished (invokeConnected_finished h.pending (by simp [h.state])
        hcompleted.symm h.linked (fun hset => ?_) ?_
        (.inr ⟨h.unbegun.ready, h.unbegun.bridged, ?_⟩))
      · exact nomatch hcompleted.symm.trans hset
      · refine forall_mem_cons.mpr
          ⟨rfl, forall_mem_cons.mpr ⟨rfl, fun frame hmem => ?_⟩⟩
        exact (not_reserved_of_calm (hbelow frame hmem)).1
      · refine forall_mem_cons.mpr
          ⟨rfl, forall_mem_cons.mpr ⟨rfl, fun frame hmem => ?_⟩⟩
        exact (not_reserved_of_calm (hbelow frame hmem)).2
    · cases hresume
      have hbridged := h.unbegun.bridged
      have hnotifying := h.unbegun.notifying
      refine .connecting ⟨.inl h.state, { h.pending with }, { h.unbegun with
        bridged := ?_, notifying := ?_ }, ⟨_, rfl, rfl, ?_⟩,
        fun frame hmem => .inl (hbelow frame hmem), fun hset => ?_⟩
      · simpa [bridged, ht] using hbridged
      · simpa [notifying, ht] using hnotifying
      · simp only [not_or, Bool.not_eq_true] at hused
        exact hused.1
      · exact nomatch h.unlatched.symm.trans hset

theorem resumed (h : Dialling s (.rest k :: todo)) (hresume : resume s k answer = some r) :
    r.Leaves Phase todo := by
  by_cases hk : k = .transportConnect
  · subst hk
    exact h.transportConnect hresume
  · have hcalm : calm (.rest k) = true := by
      obtain ⟨above, below, htodo, habove, -⟩ := h.frames
      cases above with
      | nil =>
        exact absurd (Frame.rest.inj (cons.inj htodo).1) hk
      | cons first above =>
        rw [(cons.inj htodo).1]
        exact habove _ mem_cons_self
    obtain rfl := resume_of_calm hcalm (by simp [h.state]) hresume
    exact .dialling (h.pop fun heq => hk (Frame.rest.inj heq))

end Dialling

namespace Connecting

section

variable (h : Connecting s todo)
include h

theorem state_ne : s.mState ≠ .kIdle ∧ s.mState ≠ .kConnected ∧ s.mState ≠ .kClosed := by
  rcases h.state with hstate | hstate <;> simp [hstate]

omit h in
theorem pop {frame : Frame Rest} (h : Connecting s (frame :: todo))
    (hframe : shutting frame = false) : Connecting s todo := by
  refine { h with
    frames := fun frame hmem => h.frames frame (mem_cons_of_mem _ hmem)
    closing := fun hlatched => ?_ }
  obtain ⟨other, hmem, hshutting⟩ := h.closing hlatched
  rcases mem_cons.mp hmem with rfl | hold
  · exact nomatch hframe.symm.trans hshutting
  · exact ⟨other, hold, hshutting⟩

theorem call {a : Call} (hcall : call s a = some r) :
    r.Leaves Connecting todo := by
  by_cases hclose : a = .close
  · subst hclose
    cases hcall
    by_cases hlatched : s.mCloseRequested = true
    · rw [close, if_pos (.inr hlatched)]
      exact h
    · have hopen := h.state_ne.2.2
      rw [close, if_neg (not_or.mpr ⟨hopen, hlatched⟩), beginClose, if_neg hlatched,
        if_neg hopen]
      refine ⟨.inr rfl, { h.pending with }, { h.unbegun with }, h.linked, ?_,
        fun _ => ⟨.rest .closeNotify, mem_cons_of_mem _ mem_cons_self, rfl⟩⟩
      exact forall_mem_cons.mpr ⟨.inl rfl, forall_mem_cons.mpr ⟨.inr rfl, h.frames⟩⟩
  · obtain ⟨hentry, htransport, hframes⟩ := call_before h.state_ne.1 h.state_ne.2.1 hclose hcall
    have hstate : r.1.mState = s.mState := congrArg Entry.mState hentry
    have hlatch : r.1.mCloseRequested = s.mCloseRequested := congrArg Entry.latched hentry
    refine ⟨hstate ▸ h.state, hentry ▸ h.pending, h.unbegun.of_eq hentry htransport,
      htransport ▸ h.linked,
      forall_mem_append.mpr ⟨fun frame hnew => .inl (hframes frame hnew), h.frames⟩,
      fun hset => ?_⟩
    obtain ⟨other, hold, hshutting⟩ := h.closing (hlatch ▸ hset)
    exact ⟨other, mem_append_right _ hold, hshutting⟩

theorem not_reserved : ∀ frame ∈ todo, reserved frame = false ∧ kindling frame = false :=
  fun frame hmem => (h.frames frame hmem).elim not_reserved_of_calm shutting_cases

/-- The connect fails: the callback is delivered with false. -/
theorem deliver {t u : Transport} (ht : s.mTransport = some t) (hlinked : u.connecting = false)
    (harmed : u.armed = true → t.armed = true) (hwriting : u.writing = t.writing)
    {rest : List (Frame Rest)}
    (hrest : ∀ frame ∈ rest, reserved frame = false ∧ kindling frame = false) :
    (invokeConnected false { s with mTransport := some u }).Leaves Finished rest := by
  have hcompleted := h.unbegun.completed
  have hbridged := h.unbegun.bridged
  refine invokeConnected_finished { h.pending with } h.state_ne.1 hcompleted.symm ?_
    (fun hset => ?_) (fun frame hmem => (hrest frame hmem).1)
    (.inr ⟨h.unbegun.ready, ?_, fun frame hmem => (hrest frame hmem).2⟩)
  · simpa [connecting] using hlinked
  · exact Bool.noConfusion (hcompleted.symm.trans hset)
  · simp only [bridged, ht, any_some, Bool.or_eq_false_iff] at hbridged ⊢
    rw [hwriting]
    exact ⟨eq_false_of_ne_true fun hset =>
      Bool.noConfusion (hbridged.1.symm.trans (harmed hset)), hbridged.2⟩

end

/-- `begin_close` goes on to the loop over the pending writes. -/
theorem closeNotify (h : Connecting s (.rest .closeNotify :: todo)) :
    s.closeNotify.Leaves Connecting todo := by
  have hready := h.unbegun.ready
  have hnotify : s.closeNotify = ({ s with mOutBox := [] }, [.rest (.discardWrites [])]) := by
    simp [State.closeNotify, State.captureNotify, hready]
  rw [hnotify]
  refine { h with
    pending := { h.pending with }, unbegun := { h.unbegun with }
    frames := forall_mem_cons.mpr ⟨.inr rfl, (forall_mem_cons.mp h.frames).2⟩
    closing := fun _ => ⟨.rest (.discardWrites []), mem_cons_self, rfl⟩ }

/-- Closing the transport completes its connect with failure. -/
theorem discardWrites (h : Connecting s (.rest (.discardWrites []) :: todo))
    (hresume : s.discardWrites [] answer = some r) : r.Leaves Phase todo := by
  have htodo := (forall_mem_cons.mp h.not_reserved).2
  unfold State.discardWrites at hresume
  split at hresume
  · obtain ⟨t, ht, hconnecting, hopen⟩ := h.linked
    let u : Transport := { t with armed := false, closed := true, connecting := false }
    have hclosed : r = ((invokeConnected false { s with mTransport := some u }).andThen
        .beginClose).andThen .closed := by
      simpa [closeTransport, transportClose, ht, hconnecting, hopen] using hresume.symm
    rw [hclosed, Outcome.leaves_andThen, Outcome.leaves_andThen]
    refine .finished (h.deliver (u := u) ht rfl nofun rfl ?_)
    exact forall_mem_cons.mpr ⟨⟨rfl, rfl⟩, forall_mem_cons.mpr ⟨⟨rfl, rfl⟩, htodo⟩⟩
  · cases hresume
    refine .connecting { h with
      pending := { h.pending with }, unbegun := { h.unbegun with }
      frames := forall_mem_cons.mpr ⟨.inl rfl, h.frames⟩
      closing := fun _ => ⟨.rest (.discardWrites []), ?_, rfl⟩ }
    exact mem_cons_of_mem _ mem_cons_self

theorem resumed (h : Connecting s (.rest k :: todo)) (hresume : resume s k answer = some r) :
    r.Leaves Phase todo := by
  rcases h.frames _ mem_cons_self with hcalm | hshutting
  · obtain rfl := resume_of_calm hcalm h.state_ne.2.1 hresume
    exact .connecting (h.pop (calm_cases hcalm).2)
  · unfold shutting at hshutting
    split at hshutting
    next heq =>
      cases heq
      cases hresume
      exact .connecting h.closeNotify
    next heq =>
      cases heq
      exact h.discardWrites hresume
    · cases hshutting

theorem event {e : Event} (h : Connecting s []) (hevent : event s e = some r) :
    r.Leaves Phase [] := by
  obtain ⟨ok, rfl⟩ := h.unbegun.event hevent
  obtain ⟨t, ht, hconnecting, -⟩ := h.linked
  have hunlatched : s.mCloseRequested = false := by
    refine eq_false_of_ne_true fun hset => ?_
    obtain ⟨frame, hmem, -⟩ := h.closing hset
    cases hmem
  change s.onConnectDone ok = some r at hevent
  unfold onConnectDone at hevent
  rw [ht] at hevent
  dsimp only at hevent
  rw [if_pos hconnecting] at hevent
  cases ok with
  | true =>
    cases hevent
    rw [if_pos rfl, connectSucceeded, if_neg (by simp [hunlatched])]
    have hcompleted := h.unbegun.completed
    refine .handshaking ⟨h.state_ne.1, h.state_ne.2.2, { h.pending with }, hunlatched, rfl,
      fun hset => (nomatch hcompleted.symm.trans hset), ?_⟩
    exact forall_mem_cons.mpr ⟨rfl, forall_mem_singleton.mpr rfl⟩
  | false =>
    cases hevent
    rw [if_neg Bool.false_ne_true, connectFailed, Outcome.leaves_andThen,
      Outcome.leaves_andThen]
    refine .finished (h.deliver ht (u := { t with connecting := false, connected := false })
      rfl id rfl ?_)
    exact forall_mem_cons.mpr ⟨⟨rfl, rfl⟩, forall_mem_singleton.mpr ⟨rfl, rfl⟩⟩

end Connecting

/-! ### Every run -/

theorem EntryKept.phase (h : EntryKept s todo)
    (hout : ∀ rest, todo ≠ .rest .inHandshake :: rest) : Phase s todo := by
  unfold EntryKept at h
  split at h
  next rest => exact absurd rfl (hout rest)
  · exact h

theorem Phase.call {a : Call} (h : Phase s todo) (hclose : a = .close → s.MayClose)
    (hcall : call s a = some r) : r.Leaves Phase todo := by
  cases h with
  | idle h => exact h.call hcall
  | dialling h => exact .dialling (h.call hclose hcall)
  | connecting h => exact .connecting (h.call hcall)
  | handshaking h =>
    have hne : a ≠ .close := by
      intro heq
      have hcallback : s.mOnConnected = some 0 := h.pending.callback
      have hlinked : s.connecting = false := h.linked
      have hconnecting := hclose heq h.unlatched (by rw [hcallback]; rfl)
      exact nomatch hlinked.symm.trans hconnecting
    exact .handshaking (h.apart (call_apart h.started hne hcall) fun _ => live_of_mild)
  | finished h => exact .finished (h.call hcall)

theorem Phase.ret (h : Phase s (.callback :: todo)) : Phase s todo := by
  cases h with
  | idle h =>
    exact .idle { h with frames := (forall_mem_cons.mp h.frames).2 }
  | dialling h => exact .dialling (h.pop nofun)
  | connecting h => exact .connecting (h.pop rfl)
  | handshaking h => exact .handshaking h.pop
  | finished h => exact .finished h.pop

theorem Phase.resumed (h : Phase s (.rest k :: todo)) (hclose : k = .beginClose → s.MayClose)
    (hresume : resume s k answer = some r) : r.Leaves EntryKept todo := by
  cases h with
  | idle h =>
    obtain ⟨hcalm, hframes⟩ := forall_mem_cons.mp h.frames
    obtain rfl := resume_of_calm hcalm (by simp [h.state]) hresume
    exact (Phase.idle { h with frames := hframes }).kept
  | dialling h | connecting h => exact (h.resumed hresume).kept
  | handshaking h => exact h.resumed hclose hresume
  | finished h => exact (Phase.finished (h.resumed hresume)).kept

theorem Phase.event {e : Event} (h : Phase s []) (hevent : event s e = some r) :
    r.Leaves Phase [] := by
  cases h with
  | idle h =>
    obtain ⟨ok, rfl⟩ := h.unbegun.event hevent
    cases (onConnectDone_of_idle ok h.linked).symm.trans hevent
  | dialling h =>
    obtain ⟨above, below, htodo, -⟩ := h.frames
    simp at htodo
  | connecting h => exact h.event hevent
  | handshaking h => exact .handshaking (h.event hevent)
  | finished h => exact .finished (h.event hevent)

variable {c : Config State Rest}

theorem EntryKept.step {d : Config State Rest} {a : Label Call Answer Event}
    (h : EntryKept c.store c.todo) (hpatient : Patient c a)
    (hstep : program.step c a = some d) : EntryKept d.store d.todo := by
  cases Program.step_effect hstep with
  | call s todo a r htop hcall =>
    refine ((h.phase (htop .inHandshake)).call ?_ hcall).kept
    rintro rfl
    exact hpatient
  | ret s todo => exact (h.phase nofun).ret.kept
  | resume s k todo answer r hresume =>
    by_cases hk : k = .inHandshake
    · subst hk
      exact h.1.resumed_inHandshake h.2 (hpatient.2 todo rfl) hresume
    · refine (h.phase fun rest heq => hk ?_).resumed ?_ hresume
      · cases heq
        rfl
      · rintro rfl
        exact hpatient.1 todo rfl
  | event s e r hevent =>
    have hover := (h.phase nofun).event hevent
    rw [Outcome.Leaves, append_nil] at hover
    exact hover.kept

/-- A callback that is pending has not been invoked. -/
theorem Entry.Pending.settled (h : c.store.entry.Pending)
    (hopen : c.store.mState ≠ .kClosed) : EntrySettled c := by
  have hundelivered : c.store.connected = [] := h.undelivered
  refine ⟨fun n => ?_, fun n ok hmem => ?_, fun hclosed => absurd hclosed hopen⟩
  · rw [hundelivered]
    exact Nat.zero_le 1
  · rw [hundelivered] at hmem
    cases hmem

theorem Phase.settled (h : Phase c.store todo) : EntrySettled c := by
  cases h with
  | idle h =>
    have hundelivered := h.undelivered
    refine ⟨fun n => ?_, fun n ok hmem => ?_, fun hclosed => ?_⟩
    · rw [hundelivered]
      exact Nat.zero_le 1
    · rw [hundelivered] at hmem
      cases hmem
    · cases h.state.symm.trans hclosed
  | dialling h => exact h.pending.settled (by simp [h.state])
  | connecting h => exact h.pending.settled h.state_ne.2.2
  | handshaking h => exact h.pending.settled h.opened
  | finished h =>
    refine ⟨fun n => ?_, h.past.outcome, fun _ n hn => ?_⟩
    · have hcounted : (c.store.connected.map Prod.fst).count n
        = if n < c.store.entries then 1 else 0 := h.past.counted n
      split_ifs at hcounted <;> omega
    · exact (h.past.counted n).trans (if_pos hn)

theorem EntryKept.settled (h : EntryKept c.store c.todo) : EntrySettled c := by
  unfold EntryKept at h
  split at h
  · exact (Phase.handshaking h.1).settled
  · exact h.settled

/-- **The callback of the entry is settled**, in every run of transport callbacks, library results
and calls in which `begin_close` is entered only as the condition says. `begin_close` itself does
not invoke the callback; a transport that is still connecting does when it is closed. -/
theorem entry_settled (run : List (Label Call Answer Event))
    (hpatient : program.machine.Meets Patient program.machine.init run) :
    program.machine.Always EntrySettled program.machine.init run := by
  have hinit : Phase {} [] := by
    refine .idle ⟨rfl, rfl, rfl, rfl, ⟨rfl, rfl, rfl, rfl, rfl⟩, rfl, rfl, nofun⟩
  exact (Machine.always_of_meets (I := fun c : Config State Rest => EntryKept c.store c.todo)
    (fun _ _ _ h hc hstep => h.step hc hstep) hinit.kept hpatient).mono fun _ h => h.settled

/-- A client that is closed while its transport connects. -/
theorem entry_settled_closed_connecting : program.machine.Always EntrySettled program.machine.init
      [.call .connectTls, .ret, .resume {}, .call .close, .ret, .resume {}, .resume {}, .ret,
        .resume {}, .resume {}] := by
  apply entry_settled
  iterate 3
    rintro _ ⟨⟩
    refine ⟨by first | trivial | exact ⟨nofun, nofun⟩, ?_⟩
  rintro _ ⟨⟩
  refine ⟨fun _ _ => rfl, ?_⟩
  iterate 4
    rintro _ ⟨⟩
    refine ⟨by first | trivial | exact ⟨nofun, nofun⟩, ?_⟩
  rintro _ ⟨⟩
  refine ⟨⟨fun _ _ => nofun, nofun⟩, ?_⟩
  rintro _ ⟨⟩
  exact ⟨⟨nofun, nofun⟩, trivial⟩

/-- A server that is closed while the handshake waits for its peer: it reaches `kClosed` and
the callback has not been invoked. -/
theorem handshake_callback_forgotten : ∃ c : Config State Rest,
    program.machine.run program.machine.init
      [.call (.setTransport true false), .call .startTls, .ret, .resume {}, .resume {}, .resume {},
        .resume { rc := errSslWantRead }, .call .close, .ret, .resume {}, .resume {}, .resume {},
        .ret, .resume {}, .ret] = some c ∧ ¬ EntrySettled c := by
  refine ⟨_, rfl, fun h => ?_⟩
  have hinvoked : 0 = 1 := h.settled rfl 0 (by decide)
  cases hinvoked

end CxxKit.TlsSocket
