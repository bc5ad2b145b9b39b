import CxxKit.Network.TlsPhases

/-!
The handshake phase of a `TlsSocket`, and what follows the delivery of its callback.
-/

namespace CxxKit.TlsSocket

open CxxKit.Network List Option Reentrant State

variable {s : State} {r : Step} {todo : List (Frame Rest)} {answer : Answer} {k : Rest} {ok : Bool}
  {allowed : Frame Rest → Bool}

/-! ### The handshake phase -/

namespace Handshaking

section

variable (h : Handshaking s.entry todo)

include h

theorem setupSsl (hresume : s.setupSsl answer = some r) : Handshaking r.1.entry (r.2 ++ todo) := by
  unfold State.setupSsl at hresume
  split_ifs at hresume
  · cases hresume
    exact h
  · cases hresume
    exact h.apart finishError_inert.apart_mild fun _ => live_of_mild
  · split at hresume
    · cases hresume
    next t ht =>
      split_ifs at hresume
      cases hresume
      have hlinked : s.connecting = false := h.linked
      refine { h with pending := { h.pending with }, linked := ?_ }
      simpa [entry, connecting, ht] using hlinked

variable (hcompleted : s.completed = true)
include hcompleted

/-- The handshake has succeeded: the callback is delivered with true. -/
theorem deliverConnected : (s.deliverConnected answer).Leaves Finished todo := by
  unfold State.deliverConnected
  rw [Outcome.leaves_andThen]
  have hdone : s.mDone = true := h.done hcompleted
  refine invokeConnected_finished { h.pending with } h.started hcompleted.symm h.linked
    (fun _ => hdone) ?_ (.inl hdone)
  refine forall_mem_cons.mpr ⟨rfl, fun frame hmem => ?_⟩
  exact (live_cases (h.frames frame hmem)).2.1

omit hcompleted in
/-- The handshake has failed: the callback is delivered with false. -/
theorem failHandshake : s.failHandshake.Leaves Phase todo := by
  unfold State.failHandshake
  split_ifs with hdone
  · refine .handshaking (h.apart ?_ fun _ => live_of_mild)
    exact .frames_of rfl rfl (mild_singleton rfl)
  · rw [Outcome.leaves_andThen]
    have hcompleted : s.completed = false :=
      eq_false_of_ne_true fun hset => hdone (h.done hset)
    refine .finished (invokeConnected_finished { h.pending with } h.started
      hcompleted.symm h.linked (fun _ => rfl) ?_ (.inl rfl))
    refine forall_mem_cons.mpr ⟨rfl, fun frame hmem => ?_⟩
    exact (live_cases (h.frames frame hmem)).2.1

theorem flushHandshake (hresume : s.flushHandshake answer = some r) :
    Handshaking r.1.entry (r.2 ++ todo) := by
  obtain ⟨r', hr', rfl⟩ := map_eq_some_iff.mp hresume
  rw [Outcome.andThen_snd, append_assoc]
  have hnext : Handshaking s.entry (.rest .handshakeConnected :: todo) := by
    refine { h with frames := forall_mem_cons.mpr ⟨?_, h.frames⟩ }
    change false || false || s.completed && true = true
    rw [hcompleted]
    rfl
  exact hnext.apart (pumpWrite_inert hr').apart_mild fun _ => live_of_mild

theorem handshakeConnected :
    Handshaking s.handshakeConnected.1.entry (s.handshakeConnected.2 ++ todo) := by
  refine { h with pending := { h.pending with }, started := nofun, opened := nofun, frames := ?_ }
  refine forall_mem_cons.mpr ⟨rfl, forall_mem_cons.mpr ⟨?_, h.frames⟩⟩
  change false || false || s.completed && true = true
  rw [hcompleted]
  rfl

end

theorem resumed (h : Handshaking s.entry (.rest k :: todo))
    (hclose : k = .beginClose → s.MayClose) (hresume : resume s k answer = some r) :
    r.Leaves EntryKept todo := by
  have hbase := h.pop
  have hlive := live_cases (h.frames _ mem_cons_self)
  by_cases hroutine : routine k = true
  · have hapart := resume_apart hroutine h.linked hresume
    exact (Phase.handshaking (hbase.apart hapart fun _ => live_of_mild)).kept
  · cases k with
    | transportConnect | inHandshake => cases hlive.2.1
    | attachBridge =>
      cases hresume
      exact (Phase.handshaking (hbase.apart attachBridge_inert.apart live_of_kindled)).kept
    | setupSsl => exact (Phase.handshaking (hbase.setupSsl hresume)).kept
    | driveHandshake =>
      cases hresume
      unfold driveHandshake
      split_ifs with hdone
      · exact (Phase.handshaking hbase).kept
      · exact ⟨hbase, eq_false_of_ne_true hdone⟩
    | flushHandshake =>
      exact (Phase.handshaking (hbase.flushHandshake (hlive.2.2.2 rfl) hresume)).kept
    | handshakeConnected =>
      cases hresume
      exact (Phase.handshaking (hbase.handshakeConnected (hlive.2.2.2 rfl))).kept
    | deliverConnected =>
      cases hresume
      exact (Phase.finished (hbase.deliverConnected (hlive.2.2.2 rfl))).kept
    | failHandshake =>
      cases hresume
      exact hbase.failHandshake.kept
    | beginClose =>
      have hcallback : s.mOnConnected = some 0 := h.pending.callback
      have hlinked : s.connecting = false := h.linked
      have hconnecting := hclose rfl h.unlatched (by rw [hcallback]; rfl)
      exact nomatch hlinked.symm.trans hconnecting
    | closeNotify | inCloseNotify | discardWrites notify => cases hlive.1
    | closed => exact absurd rfl hlive.2.2.1
    | onRedrive =>
      cases hresume
      exact (Phase.handshaking (hbase.apart onRedrive_inert.apart live_of_kindled)).kept
    | _ => exact absurd rfl hroutine

theorem resumed_inHandshake (h : Handshaking s.entry todo) (hdone : s.mDone = false)
    (haccepts : s.Accepts answer) (hresume : resume s .inHandshake answer = some r) :
    r.Leaves EntryKept todo := by
  have hreturned : ∀ rc, (s.handshakeReturned rc).Leaves EntryKept todo := by
    intro rc
    unfold handshakeReturned
    split_ifs
    · have hnext : Handshaking ({ s with mDone := true, completed := true }).entry
          (.rest .flushHandshake :: todo) := by
        refine { h with pending := { h.pending with }, done := fun _ => rfl, frames := ?_ }
        refine forall_mem_cons.mpr ⟨rfl, fun frame hmem => ?_⟩
        have hlive := h.frames frame hmem
        simp only [live, Bool.or_eq_true, Bool.and_eq_true] at hlive ⊢
        exact hlive.imp_right fun hcase => ⟨rfl, hcase.2⟩
      exact (Phase.handshaking hnext).kept
    · exact (Phase.handshaking h).kept
    · exact (Phase.handshaking
        (h.apart finishError_inert.apart_mild fun _ => live_of_mild)).kept
  change s.inHandshake answer = some r at hresume
  unfold inHandshake at hresume
  split_ifs at hresume
  · rcases library_cases hresume with ⟨call, r', hcall, hbio, rfl⟩ | ⟨-, hreturn⟩
    · have hinert := bio_inert hbio
      have hframes := bio_frames hcall haccepts hbio
      have hnext := h.apart hinert.apart_mild fun _ => live_of_mild
      rw [hframes] at hnext
      rw [Outcome.Leaves, Outcome.andThen_snd, hframes]
      exact ⟨hnext, (congrArg (·.entry.mDone) hinert.core).trans hdone⟩
    · cases hreturn
      exact hreturned _
  · cases hresume
    exact hreturned _

end Handshaking

/-! ### Callbacks of the transport without a connect -/

def mildOrKindling (frame : Frame Rest) : Bool := mild frame || kindling frame

theorem mildOrKindling_of_quiet (frame : Frame Rest) (h : quiet frame = true) :
    mildOrKindling frame = true := by
  rw [mildOrKindling, mild_of_quiet frame h, Bool.true_or]

theorem live_of_mildOrKindling {completed : Bool} (frame : Frame Rest)
    (h : mildOrKindling frame = true) : live completed frame = true := by
  rw [mildOrKindling] at h
  rw [live, h, Bool.true_or]

namespace State

theorem bridged_of_transportArmed (h : s.transportArmed = true) : s.bridged = true := by
  unfold transportArmed at h
  split at h
  next t ht =>
    have harmed : t.armed = true := by simp_all
    simp [bridged, ht, harmed]
  · cases h

theorem recordWritten_apart : Apart mildOrKindling s (s.recordWritten ok) := by
  unfold recordWritten
  split_ifs
  · exact .refl
  · refine .frames_of rfl rfl ?_
    exact forall_mem_cons.mpr ⟨rfl, forall_mem_singleton.mpr rfl⟩
  · exact { finishError_inert.apart.mono mildOrKindling_of_quiet with }

theorem onRead_apart {bytes : List UInt8} (h : s.onRead bytes = some r) :
    s.bridged = true ∧ Apart mildOrKindling s r := by
  unfold onRead at h
  split_ifs at h with henabled
  cases h
  refine ⟨bridged_of_transportArmed henabled.1, .frames_of rfl rfl ?_⟩
  exact forall_mem_cons.mpr ⟨rfl, forall_mem_singleton.mpr rfl⟩

theorem onReadFailed_apart (h : s.onReadFailed = some r) :
    s.bridged = true ∧ Apart mildOrKindling s r := by
  unfold onReadFailed at h
  split_ifs at h with harmed hdone hconnected
  · cases h
    exact ⟨bridged_of_transportArmed harmed,
      (finishError_inert.apart.mono mildOrKindling_of_quiet).andThen rfl⟩
  · cases h
    refine ⟨bridged_of_transportArmed harmed, Apart.andThen (.frames_of rfl rfl ?_) rfl⟩
    exact forall_mem_singleton.mpr rfl
  · cases h
    exact ⟨bridged_of_transportArmed harmed, Apart.refl.andThen rfl⟩

/-- The oldest write is a record of the bridge, or the one that `begin_close` forwards. -/
theorem onWriteDone_cases (h : s.onWriteDone ok = some r) :
    (s.bridged = true ∧ Apart mildOrKindling s r)
      ∨ ∃ u : State, s.notifying = true ∧ u.entry = s.entry ∧
        (s.bridged = false → u.bridged = false)
        ∧ r = u.notifyWritten := by
  unfold onWriteDone at h
  split at h
  · cases h
  next t ht =>
    split at h
    · cases h
    · next write rest hwriting =>
        cases h
        let u : State := { s with mTransport := some { t with writing := rest } }
        have hentry : u.entry = s.entry := by simp [u, entry, connecting, ht]
        cases write with
        | record =>
          have hbridged : s.bridged = true := by simp [bridged, ht, hwriting]
          have hwritten : Apart mildOrKindling u (u.recordWritten ok) := recordWritten_apart
          refine .inl ⟨hbridged, hwritten.entry.trans hentry, fun _ hnot => ?_, hwritten.frames⟩
          exact Bool.noConfusion (hnot.symm.trans hbridged)
        | notify =>
          refine .inr ⟨u, by simp [notifying, ht, hwriting], hentry, fun hnot => ?_, rfl⟩
          simpa [u, bridged, ht, hwriting] using hnot

theorem onConnectDone_of_idle (ok : Bool) (h : s.connecting = false) :
    s.onConnectDone ok = none := by
  unfold onConnectDone
  split
  · rfl
  next t ht =>
    have hidle : t.connecting = false := by simpa [connecting, ht] using h
    rw [if_neg (by simp [hidle])]

end State

theorem Handshaking.event {e : Event} (h : Handshaking s.entry todo)
    (hevent : event s e = some r) : Handshaking r.1.entry (r.2 ++ todo) := by
  cases e with
  | onConnectDone ok =>
    cases (onConnectDone_of_idle ok h.linked).symm.trans hevent
  | onWriteDone ok =>
    rcases onWriteDone_cases hevent with ⟨-, hapart⟩ | ⟨u, -, hentry, -, rfl⟩
    · exact h.apart hapart live_of_mildOrKindling
    · have hunlatched : u.mCloseRequested = false :=
        (congrArg Entry.latched hentry).trans h.unlatched
      rw [notifyWritten, if_pos (.inl hunlatched)]
      rw [← hentry] at h
      exact h
  | onRead bytes => exact h.apart (onRead_apart hevent).2 live_of_mildOrKindling
  | onReadFailed => exact h.apart (onReadFailed_apart hevent).2 live_of_mildOrKindling

/-! ### After the callback -/

namespace Finished

section

variable (h : Finished s todo) {notify : List UInt8}

include h

/-- Frames outside the account of the callback. -/
theorem push (fs : List (Frame Rest))
    (hfs : ∀ frame ∈ fs, reserved frame = false ∧ kindling frame = false) :
    Finished s (fs ++ todo) := by
  have hapart : Apart (fun f => !reserved f && !kindling f) s (s, fs) := by
    refine .frames_of rfl rfl fun frame hmem => ?_
    rw [(hfs frame hmem).1, (hfs frame hmem).2]
    rfl
  refine h.apart hapart fun frame hallowed => ?_
  simp only [Bool.and_eq_true, Bool.not_eq_true'] at hallowed
  exact ⟨hallowed.1, fun h => nomatch hallowed.2.symm.trans h⟩

/-- While the handshake is done, any frame but the reserved ones may be pushed. -/
theorem apart_done (hdone : s.mDone = true) (hr : Apart allowed s r)
    (hallowed : ∀ frame, allowed frame = true → reserved frame = false) :
    r.Leaves Finished todo :=
  h.apart hr fun frame hframe => ⟨hallowed frame hframe, fun _ => hdone⟩

theorem setState {state : SocketState} (hstate : state ≠ .kIdle) :
    Finished (s.setState state).1 (.callback :: todo) := by
  have hnext : Finished { s with mState := state } todo :=
    ⟨{ h.past with started := hstate }, h.dead⟩
  exact hnext.push [.callback] (forall_mem_singleton.mpr ⟨rfl, rfl⟩)

theorem beginClose : s.beginClose.Leaves Finished todo := by
  have hbase : Finished { s with mCloseRequested := true } todo := ⟨{ h.past with }, h.dead⟩
  have hlatched := hbase.push [.rest .closeNotify] (forall_mem_singleton.mpr ⟨rfl, rfl⟩)
  unfold State.beginClose
  split_ifs
  · exact h
  · exact hlatched
  · exact hlatched.setState nofun

theorem setupSsl (hdone : s.mDone = true)
    (hresume : s.setupSsl answer = some r) : r.Leaves Finished todo := by
  unfold State.setupSsl at hresume
  split_ifs at hresume
  · cases hresume
    exact h
  · cases hresume
    exact h.apart_mild finishError_inert.apart_mild
  · split at hresume
    · cases hresume
    next t ht =>
      split_ifs at hresume
      cases hresume
      have hlinked : s.connecting = false := h.past.linked
      refine ⟨{ h.past with linked := ?_ }, .inl hdone⟩
      simpa [entry, connecting, ht] using hlinked

theorem invokeConnected : s.invokeConnected ok = (s, []) := by
  have hcallback : s.mOnConnected = none := h.past.callback
  rw [State.invokeConnected, hcallback]

theorem failHandshake : s.failHandshake.Leaves Finished todo := by
  have hclose : ∀ frame ∈ [Frame.rest Rest.beginClose],
      reserved frame = false ∧ kindling frame = false :=
    forall_mem_singleton.mpr ⟨rfl, rfl⟩
  unfold State.failHandshake
  split_ifs
  · exact h.push _ hclose
  · have hnext : Finished { s with mDone := true } todo :=
      ⟨{ h.past with done := fun _ => rfl }, .inl rfl⟩
    rw [hnext.invokeConnected]
    exact hnext.push _ hclose

theorem deliverConnected : (s.deliverConnected answer).Leaves Finished todo := by
  unfold State.deliverConnected
  have hnext : Finished { s with mLastError :=
      if s.mVerifyMode = 1 ∧ answer.verifyFlags ≠ 0 then .kTlsCertificateError
      else s.mLastError } todo := ⟨{ h.past with }, h.dead⟩
  dsimp only
  rw [hnext.invokeConnected]
  exact hnext.push [.rest .pumpPlaintext] (forall_mem_singleton.mpr ⟨rfl, rfl⟩)

/-- The transport closes, and the socket after it. -/
theorem transportClose : (s.transportClose.andThen .closed).Leaves Finished todo := by
  rw [Outcome.leaves_andThen]
  have hnext := h.push [.rest .closed] (forall_mem_singleton.mpr ⟨rfl, rfl⟩)
  exact hnext.apart_mild (transportClose_inert h.past.linked).apart_mild

theorem notifyWritten : s.notifyWritten.Leaves Finished todo := by
  unfold State.notifyWritten
  split_ifs
  · exact h
  · exact h.transportClose

theorem closeTransport (hclose : s.closeTransport notify answer = some r) :
    r.Leaves Finished todo := by
  unfold State.closeTransport at hclose
  split at hclose
  · cases hclose
    exact h.setState nofun
  next t ht =>
    have hlinked : t.connecting = false := by
      have hidle : s.connecting = false := h.past.linked
      simpa [connecting, ht] using hidle
    -- a transport that is not connecting and reads no more
    have hbase : ∀ closed writing, (writing.contains .record = true →
        t.writing.contains .record = true) →
        Finished { s with mTransport := some { t with
          armed := false, closed := closed, writing := writing } } todo := by
      intro closed writing hwriting
      refine ⟨{ h.past with linked := ?_ }, h.dead.imp_right fun hdead => ?_⟩
      · simpa [entry, connecting] using hlinked
      · refine ⟨hdead.1, ?_, hdead.2.2⟩
        have hbridged := hdead.2.1
        simp only [bridged, ht, any_some, Bool.or_eq_false_iff] at hbridged ⊢
        refine ⟨trivial, eq_false_of_ne_true fun hset => ?_⟩
        exact Bool.noConfusion (hbridged.2.symm.trans (hwriting hset))
    have hopen := hbase t.closed t.writing id
    split_ifs at hclose
    · cases hclose
      exact hopen.transportClose
    · unfold transportWrite at hclose
      dsimp only at hclose
      split_ifs at hclose
      · cases hclose
        exact hopen.notifyWritten
      · cases hclose
        exact hopen.notifyWritten
      · cases hclose
        exact hbase t.closed _ (by simp)

theorem discardWrites (hresume : s.discardWrites notify answer = some r) :
    r.Leaves Finished todo := by
  unfold State.discardWrites at hresume
  split at hresume
  · exact h.closeTransport hresume
  next pending rest hpending =>
    cases hresume
    have hnext : Finished { s with
        mPendingWrites := rest, written := s.written ++ [(pending.mOnWritten, false)] } todo :=
      ⟨{ h.past with }, h.dead⟩
    refine hnext.push [.callback, .rest (.discardWrites notify)] ?_
    exact forall_mem_cons.mpr ⟨⟨rfl, rfl⟩, forall_mem_singleton.mpr ⟨rfl, rfl⟩⟩

theorem flushHandshake (hresume : s.flushHandshake answer = some r) : r.Leaves Finished todo := by
  obtain ⟨r', hr', rfl⟩ := map_eq_some_iff.mp hresume
  rw [Outcome.leaves_andThen]
  have hnext := h.push [.rest .handshakeConnected] (forall_mem_singleton.mpr ⟨rfl, rfl⟩)
  exact hnext.apart_mild (pumpWrite_inert hr').apart_mild

theorem drained (hr : Inert draining s r) : r.Leaves Finished todo := by
  refine h.apart hr.apart fun frame hframe => ?_
  unfold draining at hframe
  split at hframe <;> first | exact ⟨rfl, nofun⟩ | cases hframe

end

theorem not_reserved_of_kindled (frame : Frame Rest)
    (h : (quiet frame || kindling frame) = true) : reserved frame = false :=
  (live_cases (@live_of_kindled false frame h)).2.1

theorem resumed (h : Finished s (.rest k :: todo)) (hresume : resume s k answer = some r) :
    r.Leaves Finished todo := by
  have hbase := h.pop
  have hreserved := h.past.frames _ mem_cons_self
  by_cases hroutine : routine k = true
  · exact hbase.apart_mild (resume_apart hroutine h.past.linked hresume)
  · cases k with
    | transportConnect | inHandshake => cases hreserved
    | attachBridge =>
      cases hresume
      exact hbase.apart_done (h.done_of_kindling rfl) attachBridge_inert.apart
        not_reserved_of_kindled
    | setupSsl => exact hbase.setupSsl (h.done_of_kindling rfl) hresume
    | driveHandshake =>
      cases hresume
      rw [driveHandshake, if_pos (h.done_of_kindling rfl)]
      exact hbase
    | flushHandshake => exact hbase.flushHandshake hresume
    | handshakeConnected =>
      cases hresume
      have hnext := hbase.push [.rest .deliverConnected]
        (forall_mem_singleton.mpr ⟨rfl, rfl⟩)
      exact hnext.setState nofun
    | deliverConnected =>
      cases hresume
      exact hbase.deliverConnected
    | failHandshake =>
      cases hresume
      exact hbase.failHandshake
    | beginClose =>
      cases hresume
      exact hbase.beginClose
    | closeNotify =>
      cases hresume
      exact hbase.drained closeNotify_inert
    | inCloseNotify =>
      have hlibrary : s.library .inCloseNotify (fun s => some s.captureNotify) answer = some r :=
        hresume
      rcases library_cases hlibrary with ⟨call, r', -, hbio, rfl⟩ | ⟨-, hreturned⟩
      · rw [Outcome.leaves_andThen]
        exact h.apart_mild (bio_inert hbio).apart_mild
      · cases hreturned
        exact hbase.drained captureNotify_inert
    | discardWrites notify => exact hbase.discardWrites hresume
    | closed =>
      cases hresume
      exact hbase.setState nofun
    | onRedrive =>
      cases hresume
      exact hbase.apart_done (h.done_of_kindling rfl) onRedrive_inert.apart
        not_reserved_of_kindled
    | _ => exact absurd rfl hroutine

theorem call {a : Call} (h : Finished s todo) (hcall : call s a = some r) :
    r.Leaves Finished todo := by
  by_cases hclose : a = .close
  · subst hclose
    cases hcall
    unfold close
    split_ifs
    · exact h
    · exact h.beginClose
  · exact h.apart_mild (call_apart h.past.started hclose hcall)

theorem event {e : Event} (h : Finished s todo) (hevent : event s e = some r) :
    r.Leaves Finished todo := by
  have hbridge : s.bridged = true → Apart mildOrKindling s r → r.Leaves Finished todo := by
    intro hbridged hapart
    refine h.apart_done (h.done_of_bridged hbridged) hapart fun frame hframe => ?_
    exact (live_cases (@live_of_mildOrKindling false frame hframe)).2.1
  cases e with
  | onConnectDone ok =>
    cases (onConnectDone_of_idle ok h.past.linked).symm.trans hevent
  | onWriteDone ok =>
    rcases onWriteDone_cases hevent with ⟨hbridged, hapart⟩ | ⟨u, -, hentry, hclear, rfl⟩
    · exact hbridge hbridged hapart
    · have hnext : Finished u todo := by
        refine ⟨hentry ▸ h.past, ?_⟩
        have hdone : u.mDone = s.mDone := congrArg Entry.mDone hentry
        have hready : u.mSslReady = s.mSslReady := congrArg Entry.mSslReady hentry
        rw [hdone, hready]
        exact h.dead.imp_right fun hdead => ⟨hdead.1, hclear hdead.2.1, hdead.2.2⟩
      exact hnext.notifyWritten
  | onRead bytes => exact hbridge (onRead_apart hevent).1 (onRead_apart hevent).2
  | onReadFailed =>
    exact hbridge (onReadFailed_apart hevent).1 (onReadFailed_apart hevent).2

end Finished

end CxxKit.TlsSocket
