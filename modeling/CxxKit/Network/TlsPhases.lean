import CxxKit.Network.TlsSteps
import Mathlib.Data.List.Count

/-!
The life of the callback of `connect_tls` and `start_tls`, in phases.

Before the entry points there is none.  `connect_tls` sets it, dials, and waits
for the transport; `start_tls` goes to the handshake at once.  It is delivered
by `drive_handshake`, by `finish_error` or by the callback of the connect, and
from then on no handshake can succeed.
-/

namespace CxxKit.TlsSocket

open Bool CxxKit.Network List Reentrant State

/-- `begin_close` closes a socket whose callback is delivered, or one whose transport is still
connecting. -/
def State.MayClose (s : State) : Prop :=
  s.mCloseRequested = false → s.mOnConnected.isSome = true → s.connecting = true

/-! ### Functions that leave the callback alone -/

/-- Frames of `drive_handshake` after `mbedtls_ssl_handshake` has succeeded. -/
def completing : Frame Rest → Bool
  | .rest .flushHandshake | .rest .handshakeConnected | .rest .deliverConnected => true
  | _ => false

/-- Frames that only the functions of the account push. -/
def reserved : Frame Rest → Bool
  | .rest .transportConnect | .rest .inHandshake => true
  | _ => false

def mild : Frame Rest → Bool
  | .rest .closed => false
  | frame => !(kindling frame || draining frame || completing frame || reserved frame)

/-- A step that leaves the callback alone and pushes frames that are `allowed`. -/
structure Apart (allowed : Frame Rest → Bool) (s : State) (r : Step) : Prop where
  entry : r.1.entry = s.entry
  bridged : s.mSslReady = false → s.bridged = false → r.1.bridged = false
  frames : ∀ frame ∈ r.2, allowed frame = true

variable {s : State} {r : Step} {todo : List (Frame Rest)} {answer : Answer} {k : Rest} {ok : Bool}
  {allowed wider : Frame Rest → Bool}

theorem mild_of_quiet (frame : Frame Rest) (h : quiet frame = true) : mild frame = true := by
  unfold quiet at h
  split at h
  · rfl
  · split at h <;> first | rfl | cases h

theorem Inert.apart (h : Inert allowed s r) : Apart allowed s r where
  entry := congrArg Core.entry h.core
  bridged := h.bridged
  frames := h.frames

namespace Apart

theorem mono (h : Apart allowed s r)
    (hwider : ∀ frame, allowed frame = true → wider frame = true) : Apart wider s r :=
  { h with frames := fun frame hmem => hwider frame (h.frames frame hmem) }

theorem andThen (h : Apart allowed s r) (hk : allowed (.rest k) = true) :
    Apart allowed s (r.andThen k) :=
  { h with frames := forall_mem_append.mpr ⟨h.frames, forall_mem_singleton.mpr hk⟩ }

theorem refl : Apart allowed s (s, []) := ⟨rfl, fun _ h => h, nofun⟩

/-- A state that differs outside the account, and the frames pushed. -/
theorem frames_of {u : State} {fs : List (Frame Rest)} (hentry : u.entry = s.entry)
    (hbridged : u.bridged = s.bridged) (hfs : ∀ frame ∈ fs, allowed frame = true) :
    Apart allowed s (u, fs) :=
  ⟨hentry, fun _ h => hbridged.trans h, hfs⟩

end Apart

theorem Inert.apart_mild (h : Inert quiet s r) : Apart mild s r := h.apart.mono mild_of_quiet

variable {frame : Frame Rest} {completed : Bool}

theorem mild_singleton (h : mild frame = true) : ∀ f ∈ [frame], mild f = true :=
  forall_mem_singleton.mpr h

namespace State

theorem pumpPlaintextWrite_apart : Apart mild s s.pumpPlaintextWrite := by
  unfold pumpPlaintextWrite
  split_ifs
  · split
    · exact .refl
    · split_ifs
      · exact Apart.andThen (.frames_of rfl rfl (mild_singleton rfl)) rfl
      · exact .frames_of rfl rfl (mild_singleton rfl)
  · exact .refl

theorem writeReturned_apart {n : Nat} {rc : Int} : Apart mild s (s.writeReturned n rc) := by
  unfold writeReturned
  by_cases hretry : tlsWantRetry rc = true
  · rw [if_pos hretry]
    exact .refl
  · rw [if_neg hretry]
    split
    · exact .frames_of rfl rfl nofun
    · split_ifs
      · exact .frames_of rfl rfl nofun
      · exact Apart.andThen (.frames_of rfl rfl (mild_singleton rfl)) rfl
      · exact Apart.andThen (.frames_of rfl rfl (mild_singleton rfl)) rfl
      · exact Apart.andThen (.frames_of rfl rfl (mild_singleton rfl)) rfl
      · exact .frames_of rfl rfl nofun

/-- A library call outside the handshake goes on or returns. -/
theorem library_apart {returned : State → Option Step} (hquiet : ∀ frame, quiet frame = true →
    allowed frame = true) (hk : allowed (.rest k) = true)
    (hreturned : ∀ r, returned s = some r → Apart allowed s r)
    (h : s.library k returned answer = some r) : Apart allowed s r := by
  rcases library_cases h with ⟨call, r', -, hbio, rfl⟩ | ⟨-, hreturn⟩
  · exact ((bio_inert hbio).apart.mono hquiet).andThen hk
  · exact hreturned r hreturn

end State

/-- Functions that leave the callback alone once there is no outstanding connect. -/
def routine : Rest → Bool
  | .transportClose | .pumpWrite | .redrivePlaintext | .pumpPlaintextWrite | .inWrite _
  | .writePeerClosed | .writeFailed _ | .pumpPlaintext | .inRead | .peerClosed _ | .compact => true
  | _ => false

theorem resume_apart (hk : routine k = true) (hlinked : s.connecting = false)
    (hresume : resume s k answer = some r) : Apart mild s r := by
  cases k with
  | transportClose =>
    cases hresume
    exact (transportClose_inert hlinked).apart_mild
  | pumpWrite => exact (pumpWrite_inert hresume).apart_mild
  | redrivePlaintext =>
    cases hresume
    exact redrivePlaintext_inert.apart_mild
  | pumpPlaintextWrite =>
    cases hresume
    exact pumpPlaintextWrite_apart
  | inWrite n =>
    have hlibrary : s.library (.inWrite n) (fun s => some (s.writeReturned n answer.rc)) answer
        = some r := hresume
    refine library_apart mild_of_quiet rfl ?_ hlibrary
    rintro r ⟨⟩
    exact writeReturned_apart
  | writePeerClosed =>
    cases hresume
    exact .frames_of rfl rfl (mild_singleton rfl)
  | writeFailed rc =>
    cases hresume
    exact finishError_inert.apart_mild
  | pumpPlaintext => exact (pumpPlaintext_inert hresume).apart_mild
  | inRead =>
    have hlibrary : s.library .inRead (fun s => s.readReturned answer) answer = some r := hresume
    exact library_apart mild_of_quiet rfl
      (fun r hr => (readReturned_inert hr).apart_mild) hlibrary
  | peerClosed message =>
    cases hresume
    exact peerClosed_inert.apart_mild
  | compact =>
    cases hresume
    exact .frames_of rfl rfl nofun
  | _ => cases hk

/-- Once an entry point has been called, only `close` does more than set a field, or than queue a
write of a connected socket. -/
theorem call_started {a : Call} (hstarted : s.mState ≠ .kIdle) (hclose : a ≠ .close)
    (hcall : call s a = some r) : r.1.entry = s.entry ∧ r.1.mTransport = s.mTransport ∧
      ∀ frame ∈ r.2, frame = .rest .pumpPlaintext ∨
        s.mState = .kConnected ∧ frame = .rest .pumpPlaintextWrite := by
  cases a with
  | setVerifyMode mode | setCaPath path | setCertificate path | setPrivateKey path | readStop =>
    cases hcall
    exact ⟨rfl, rfl, forall_mem_nil _⟩
  | setTransport connected closed =>
    change s.setTransport connected closed = some r at hcall
    rw [setTransport, if_neg hstarted] at hcall
    cases hcall
  | connectTls =>
    change s.connectTls = some r at hcall
    rw [connectTls, if_neg fun h => hstarted h.1] at hcall
    cases hcall
  | startTls =>
    change s.startTls = some r at hcall
    rw [startTls, if_neg fun h => hstarted h.1] at hcall
    cases hcall
  | write data =>
    change s.write data = some r at hcall
    unfold write at hcall
    split_ifs at hcall with hopen
    cases hcall
    exact ⟨rfl, rfl, forall_mem_cons.mpr ⟨.inr ⟨hopen.1, rfl⟩,
      forall_mem_singleton.mpr (.inl rfl)⟩⟩
  | readStart =>
    cases hcall
    exact ⟨rfl, rfl, forall_mem_singleton.mpr (.inl rfl)⟩
  | close => exact absurd rfl hclose

theorem call_apart {a : Call} (hstarted : s.mState ≠ .kIdle) (hclose : a ≠ .close)
    (hcall : call s a = some r) : Apart mild s r := by
  obtain ⟨hentry, htransport, hframes⟩ := call_started hstarted hclose hcall
  refine ⟨hentry, fun _ h => ?_, fun frame hmem => ?_⟩
  · rwa [bridged, htransport]
  · rcases hframes frame hmem with rfl | ⟨-, rfl⟩ <;> rfl

/-! ### Phases -/

/-- The callback is set and not delivered. -/
structure Entry.Pending (e : Entry) : Prop where
  callback : e.mOnConnected = some 0
  entered : e.entries = 1
  undelivered : e.connected = []

/-- No handshake has begun. -/
structure State.Unbegun (s : State) : Prop where
  done : s.mDone = false
  ready : s.mSslReady = false
  bridged : s.bridged = false
  notifying : s.notifying = false
  completed : s.completed = false

/-- What a call leaves on the stack before the handshake. -/
def calm : Frame Rest → Bool
  | .callback | .rest .pumpPlaintext => true
  | _ => false

/-- Before `connect_tls` and `start_tls`. -/
structure Idle (s : State) (todo : List (Frame Rest)) : Prop where
  state : s.mState = .kIdle
  callback : s.mOnConnected = none
  entered : s.entries = 0
  undelivered : s.connected = []
  unbegun : s.Unbegun
  unlatched : s.mCloseRequested = false
  linked : s.connecting = false
  frames : ∀ frame ∈ todo, calm frame = true

/-- `connect_tls` reports `kConnecting`, before the transport connects. -/
structure Dialling (s : State) (todo : List (Frame Rest)) : Prop where
  state : s.mState = .kConnecting
  pending : s.entry.Pending
  unbegun : s.Unbegun
  unlatched : s.mCloseRequested = false
  linked : s.connecting = false
  frames : ∃ above below, todo = above ++ .rest .transportConnect :: below
    ∧ (∀ frame ∈ above, calm frame = true) ∧ ∀ frame ∈ below, calm frame = true

/-- What `begin_close` goes through before the handshake. -/
def shutting : Frame Rest → Bool
  | .rest .closeNotify | .rest (.discardWrites []) => true
  | _ => false

/-- The transport is connecting.  `begin_close` may run, and will then close the transport. -/
structure Connecting (s : State) (todo : List (Frame Rest)) : Prop where
  state : s.mState = .kConnecting ∨ s.mState = .kClosing
  pending : s.entry.Pending
  unbegun : s.Unbegun
  linked : ∃ t, s.mTransport = some t ∧ t.connecting = true ∧ t.closed = false
  frames : ∀ frame ∈ todo, calm frame = true ∨ shutting frame = true
  closing : s.mCloseRequested = true → ∃ frame ∈ todo, shutting frame = true

/-- Frames of the handshake phase. -/
def live (completed : Bool) (frame : Frame Rest) : Bool :=
  mild frame || kindling frame || completed && completing frame

/-- The handshake may run, or has succeeded and the callback is about to be delivered. -/
structure Handshaking (e : Entry) (todo : List (Frame Rest)) : Prop where
  started : e.mState ≠ .kIdle
  opened : e.mState ≠ .kClosed
  pending : e.Pending
  unlatched : e.latched = false
  linked : e.connecting = false
  done : e.completed = true → e.mDone = true
  frames : ∀ frame ∈ todo, live e.completed frame = true

/-- The callback is delivered, or will never be set. -/
structure Over (e : Entry) (todo : List (Frame Rest)) : Prop where
  started : e.mState ≠ .kIdle
  callback : e.mOnConnected = none
  counted : ∀ n, (e.connected.map Prod.fst).count n = if n < e.entries then 1 else 0
  outcome : ∀ n ok, (n, ok) ∈ e.connected → ok = e.completed
  linked : e.connecting = false
  done : e.completed = true → e.mDone = true
  frames : ∀ frame ∈ todo, reserved frame = false

/-- No further handshake can succeed. -/
structure Finished (s : State) (todo : List (Frame Rest)) : Prop where
  past : Over s.entry todo
  dead : s.mDone = true
    ∨ s.mSslReady = false ∧ s.bridged = false ∧ ∀ frame ∈ todo, kindling frame = false

inductive Phase (s : State) (todo : List (Frame Rest)) : Prop
  | idle (h : Idle s todo)
  | dialling (h : Dialling s todo)
  | connecting (h : Connecting s todo)
  | handshaking (h : Handshaking s.entry todo)
  | finished (h : Finished s todo)

/-- `mbedtls_ssl_handshake` is not interrupted. -/
def EntryKept (s : State) : List (Frame Rest) → Prop
  | .rest .inHandshake :: todo => Handshaking s.entry todo ∧ s.mDone = false
  | todo => Phase s todo

/-! ### The phases without a connect -/

theorem mild_cases (h : mild frame = true) :
    kindling frame = false ∧ draining frame = false ∧ completing frame = false
      ∧ reserved frame = false ∧ frame ≠ .rest .closed := by
  unfold mild at h
  split at h
  · cases h
  next hne =>
    simp only [not_eq_true', or_eq_false_iff] at h
    exact ⟨h.1.1.1, h.1.1.2, h.1.2, h.2, hne⟩

theorem live_cases (h : live completed frame = true) :
    draining frame = false ∧ reserved frame = false ∧ frame ≠ .rest .closed
      ∧ (completing frame = true → completed = true) := by
  simp only [live, or_eq_true, and_eq_true] at h
  rcases h with (hmild | hkindling) | ⟨hcompleted, hcompleting⟩
  · obtain ⟨-, hdraining, hcompleting, hreserved, hclosed⟩ := mild_cases hmild
    refine ⟨hdraining, hreserved, hclosed, fun h => ?_⟩
    exact nomatch hcompleting.symm.trans h
  · unfold kindling at hkindling
    split at hkindling <;> first | exact ⟨rfl, rfl, nofun, nofun⟩ | cases hkindling
  · unfold completing at hcompleting
    split at hcompleting <;>
      first | exact ⟨rfl, rfl, nofun, fun _ => hcompleted⟩ | cases hcompleting

theorem live_of_mild (h : mild frame = true) : live completed frame = true := by
  rw [live, h, Bool.true_or, Bool.true_or]

theorem live_of_kindled (frame : Frame Rest)
    (h : (quiet frame || kindling frame) = true) : live completed frame = true := by
  rcases or_eq_true_iff.mp h with hquiet | hkindling
  · exact live_of_mild (mild_of_quiet frame hquiet)
  · rw [live, hkindling, Bool.or_true, Bool.true_or]

theorem Handshaking.apart (h : Handshaking s.entry todo) (hr : Apart allowed s r)
    (hallowed : ∀ frame, allowed frame = true → live s.completed frame = true) :
    Handshaking r.1.entry (r.2 ++ todo) := by
  rw [hr.entry]
  exact { h with
    frames := forall_mem_append.mpr ⟨fun f hnew => hallowed f (hr.frames f hnew), h.frames⟩ }

theorem Handshaking.pop (h : Handshaking s.entry (frame :: todo)) : Handshaking s.entry todo :=
  { h with frames := fun frame hmem => h.frames frame (mem_cons_of_mem _ hmem) }

/-- Frames that a finished socket may push: those of the handshake only while it is done. -/
theorem Finished.apart (h : Finished s todo) (hr : Apart allowed s r)
    (hallowed : ∀ frame, allowed frame = true →
      reserved frame = false ∧ (kindling frame = true → s.mDone = true)) :
    r.Leaves Finished todo := by
  refine ⟨?_, ?_⟩
  · rw [hr.entry]
    refine { h.past with frames := forall_mem_append.mpr ⟨fun f hnew => ?_, h.past.frames⟩ }
    exact (hallowed f (hr.frames f hnew)).1
  · have hdone : r.1.mDone = s.mDone := congrArg Entry.mDone hr.entry
    have hready : r.1.mSslReady = s.mSslReady := congrArg Entry.mSslReady hr.entry
    rw [hdone, hready]
    rcases eq_false_or_eq_true s.mDone with hset | hunset
    · exact .inl hset
    · obtain ⟨hclear, hbridged, hframes⟩ := h.dead.resolve_left (by simp [hunset])
      refine .inr ⟨hclear, hr.bridged hclear hbridged,
        forall_mem_append.mpr ⟨fun f hnew => ?_, hframes⟩⟩
      refine eq_false_of_ne_true fun hkindling => ?_
      exact nomatch hunset.symm.trans ((hallowed f (hr.frames f hnew)).2 hkindling)

theorem Finished.apart_mild (h : Finished s todo) (hr : Apart mild s r) :
    r.Leaves Finished todo := by
  refine h.apart hr fun frame hmild => ?_
  obtain ⟨hkindling, -, -, hreserved, -⟩ := mild_cases hmild
  exact ⟨hreserved, fun h => nomatch hkindling.symm.trans h⟩

theorem Finished.pop (h : Finished s (frame :: todo)) : Finished s todo where
  past := { h.past with
    frames := fun frame hmem => h.past.frames frame (mem_cons_of_mem _ hmem) }
  dead := by
    refine h.dead.imp_right fun hdead => ⟨hdead.1, hdead.2.1, fun frame hmem => ?_⟩
    exact hdead.2.2 frame (mem_cons_of_mem _ hmem)

/-- A frame of the handshake is left only while the handshake is done. -/
theorem Finished.done_of_kindling (h : Finished s (frame :: todo))
    (hframe : kindling frame = true) : s.mDone = true := by
  refine h.dead.resolve_right fun hdead => ?_
  exact nomatch (hdead.2.2 frame mem_cons_self).symm.trans hframe

theorem Finished.done_of_bridged (h : Finished s todo) (hbridged : s.bridged = true) :
    s.mDone = true :=
  h.dead.resolve_right fun hdead => nomatch hdead.2.1.symm.trans hbridged

/-- The callback is delivered, and the rest of the stack cannot complete a handshake. -/
theorem State.invokeConnected_finished (hpending : s.entry.Pending) (hstarted : s.mState ≠ .kIdle)
    (hok : ok = s.completed) (hlinked : s.connecting = false)
    (hdone : s.completed = true → s.mDone = true) (hframes : ∀ frame ∈ todo, reserved frame = false)
    (hdead : s.mDone = true
      ∨ s.mSslReady = false ∧ s.bridged = false ∧ ∀ frame ∈ todo, kindling frame = false) :
    (s.invokeConnected ok).Leaves Finished todo := by
  have hcallback : s.mOnConnected = some 0 := hpending.callback
  have hentered : s.entries = 1 := hpending.entered
  have hundelivered : s.connected = [] := hpending.undelivered
  rw [invokeConnected, hcallback, hundelivered]
  refine ⟨⟨hstarted, rfl, fun n => ?_, fun n b hmem => ?_, hlinked, hdone, ?_⟩, ?_⟩
  · change List.count n [0] = if n < s.entries then 1 else 0
    grind
  · cases mem_singleton.mp hmem
    exact hok
  · exact forall_mem_cons.mpr ⟨rfl, hframes⟩
  · refine hdead.imp_right fun hclear => ⟨hclear.1, hclear.2.1, ?_⟩
    exact forall_mem_cons.mpr ⟨rfl, hclear.2.2⟩

theorem Phase.kept (h : Phase s todo) : EntryKept s todo := by
  unfold EntryKept
  split
  next rest =>
    -- no phase has the library call on the stack
    have hmem : Frame.rest Rest.inHandshake ∈ Frame.rest Rest.inHandshake :: rest :=
      mem_cons_self
    cases h with
    | idle h => cases h.frames _ hmem
    | dialling h =>
      obtain ⟨above, below, htodo, habove, hbelow⟩ := h.frames
      rw [htodo] at hmem
      rcases mem_append.mp hmem with hold | hold
      · cases habove _ hold
      · rcases mem_cons.mp hold with heq | hold
        · cases heq
        · cases hbelow _ hold
    | connecting h => rcases h.frames _ hmem with hcalm | hshutting <;> contradiction
    | handshaking h => cases (live_cases (h.frames _ hmem)).2.1
    | finished h => cases h.past.frames _ hmem
  · exact h

end CxxKit.TlsSocket
