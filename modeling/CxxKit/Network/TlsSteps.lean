import CxxKit.Network.TlsSocket
import Mathlib.Data.List.Basic

/-!
What the functions of a `TlsSocket` leave alone.

The accounts of the callbacks read a part of the state only.  Most functions do
not touch it: they move ciphertext and plaintext, report errors and push frames.
The lemmas here say so once for each function, with the frames it may push.
-/

namespace CxxKit.TlsSocket

open CxxKit.Network Reentrant

/-- What the account of the connect callback reads. -/
structure Entry where
  mState : SocketState
  latched : Bool
  mOnConnected : Option Nat
  entries : Nat
  connected : List (Nat × Bool)
  completed : Bool
  mDone : Bool
  mSslReady : Bool
  connecting : Bool

/-- What the account of the write callbacks reads. -/
structure Ledger where
  pending : List PendingWrite
  writes : List (List UInt8)
  written : List (Nat × Bool)
  accepted : List (Nat × List UInt8)
  dangling : Bool

/-- What the accounts of the callbacks read. -/
structure Core where
  entry : Entry
  ledger : Ledger
  notifying : Bool

namespace State

variable (s : State)

def connecting : Bool := s.mTransport.any (·.connecting)

/-- The record that `begin_close` forwards is in flight. -/
def notifying : Bool := s.mTransport.any (·.writing.contains .notify)

/-- The transport calls the bridge, now or when a record is written. -/
def bridged : Bool :=
  s.mTransport.any fun t => t.armed || t.writing.contains .record

def entry : Entry where
  mState := s.mState
  latched := s.mCloseRequested
  mOnConnected := s.mOnConnected
  entries := s.entries
  connected := s.connected
  completed := s.completed
  mDone := s.mDone
  mSslReady := s.mSslReady
  connecting := s.connecting

def ledger : Ledger where
  pending := s.mPendingWrites
  writes := s.writes
  written := s.written
  accepted := s.accepted
  dangling := s.dangling

def core : Core := ⟨s.entry, s.ledger, s.notifying⟩

end State

/-! ### Frames -/

/-- Frames of functions that work on an attached bridge or report. -/
def quiet : Frame Rest → Bool
  | .callback => true
  | .rest k => match k with
    | .failHandshake | .beginClose | .pumpWrite | .redrivePlaintext | .pumpPlaintextWrite
    | .pumpPlaintext | .inRead | .peerClosed _ | .compact | .transportClose => true
    | _ => false

/-- Frames that lead to the handshake. -/
def kindling : Frame Rest → Bool
  | .rest .attachBridge | .rest .setupSsl | .rest .driveHandshake | .rest .onRedrive => true
  | _ => false

/-- Frames of `begin_close` up to its last line. -/
def draining : Frame Rest → Bool
  | .rest .closeNotify | .rest .inCloseNotify | .rest (.discardWrites _) => true
  | _ => false

/-- A step that leaves the accounts alone and pushes frames that are `allowed`. -/
structure Inert (allowed : Frame Rest → Bool) (s : State) (r : Step) : Prop where
  core : r.1.core = s.core
  bridged : s.mSslReady = false → s.bridged = false → r.1.bridged = false
  frames : ∀ frame ∈ r.2, allowed frame = true

variable {s : State} {r : Step} {answer : Answer} {allowed : Frame Rest → Bool} {k : Rest}

namespace Inert

theorem mono {wider : Frame Rest → Bool} (h : Inert allowed s r)
    (hwider : ∀ frame, allowed frame = true → wider frame = true) : Inert wider s r :=
  { h with frames := fun frame hmem => hwider frame (h.frames frame hmem) }

theorem andThen (h : Inert allowed s r) (hk : allowed (.rest k) = true) :
    Inert allowed s (r.andThen k) := by
  exact { h with
    frames := List.forall_mem_append.mpr ⟨h.frames, List.forall_mem_singleton.mpr hk⟩ }

/-- Nothing happens. -/
theorem refl : Inert allowed s (s, []) :=
  ⟨rfl, fun _ h => h, nofun⟩

end Inert

namespace State

variable {message : String} {error : SocketError} {event : ReadEvent} {call : Bio}

theorem reportError_inert : Inert quiet s (s.reportError error message) :=
  ⟨rfl, fun _ h => h, by simp [reportError, quiet]⟩

theorem finishError_inert : Inert quiet s (s.finishError error message) :=
  reportError_inert.andThen rfl

theorem peerClosed_inert : Inert quiet s (s.peerClosed message) :=
  reportError_inert.andThen rfl

theorem recordWritten_failed_inert : Inert quiet s (s.recordWritten false) := by
  unfold recordWritten
  split
  · exact .refl
  · exact { finishError_inert with }

/-- A record is given to the transport of an attached bridge. -/
theorem transportWrite_record_inert (hready : s.mSslReady = true)
    (h : s.transportWrite .record answer = some r) : Inert quiet s r := by
  unfold transportWrite at h
  split at h
  · cases h
  next t ht =>
    split_ifs at h
    · cases h
      exact recordWritten_failed_inert
    · cases h
      exact recordWritten_failed_inert
    · cases h
      refine ⟨?_, fun hnot => ?_, nofun⟩
      · simp [core, entry, ledger, connecting, notifying, ht]
      · exact nomatch hnot.symm.trans hready

theorem pumpWrite_inert (h : s.pumpWrite answer = some r) : Inert quiet s r := by
  unfold pumpWrite at h
  split at h
  · cases h
    exact .refl
  next record rest hbox =>
    split_ifs at h
    · cases h
      exact .refl
    · have hready : s.mSslReady = true := by simp_all
      exact { transportWrite_record_inert (s := { s with
        mWriteInFlight := true, submitted := s.submitted ++ [record] }) hready h with }

theorem bio_inert (h : s.bio call answer = some r) : Inert quiet s r := by
  unfold bio at h
  split at h
  · unfold fSend at h
    split_ifs at h
    · cases h
      exact .refl
    · exact { pumpWrite_inert h with }
  · cases h
    exact ⟨rfl, fun _ h => h, nofun⟩

/-- A library call goes on after a call of the bridge, or returns. -/
theorem library_cases {returned : State → Option Step} (h : s.library k returned answer = some r) :
    (∃ call r', answer.bio = some call ∧ s.bio call answer = some r' ∧ r = r'.andThen k)
      ∨ answer.bio = none ∧ returned s = some r := by
  unfold library at h
  split at h
  next call hcall =>
    obtain ⟨r', hr', rfl⟩ := Option.map_eq_some_iff.mp h
    exact .inl ⟨call, r', hcall, hr', rfl⟩
  next hnone => exact .inr ⟨hnone, h⟩

theorem deliver_inert (h : s.deliver event = some r) : Inert quiet s r := by
  unfold deliver at h
  split_ifs at h
  cases h
  exact ⟨rfl, fun _ h => h, by simp [quiet]⟩

theorem deliver_andThen_inert (hk : quiet (.rest k) = true)
    (h : ((s.deliver event).map fun r => r.andThen k) = some r) : Inert quiet s r := by
  obtain ⟨r', hr', rfl⟩ := Option.map_eq_some_iff.mp h
  exact (deliver_inert hr').andThen hk

theorem pumpPlaintext_inert (h : s.pumpPlaintext = some r) : Inert quiet s r := by
  unfold pumpPlaintext at h
  split_ifs at h
  · exact deliver_andThen_inert rfl h
  · cases h
    exact ⟨rfl, fun _ h => h, by simp [quiet]⟩
  · cases h
    exact .refl

theorem readReturned_inert (h : s.readReturned answer = some r) : Inert quiet s r := by
  unfold readReturned at h
  split_ifs at h
  · cases h
    exact .refl
  · exact deliver_andThen_inert rfl h
  · exact deliver_andThen_inert rfl h
  · cases h
    exact .refl
  · cases h
    exact finishError_inert
  · exact deliver_andThen_inert rfl h

theorem redrivePlaintext_inert : Inert quiet s s.redrivePlaintext := by
  unfold redrivePlaintext
  split_ifs
  · exact ⟨rfl, fun _ h => h, by simp [quiet]⟩
  · exact ⟨rfl, fun _ h => h, by simp [quiet]⟩
  · exact .refl

/-- A transport without an outstanding connect closes. -/
theorem transportClose_inert (hconnecting : s.connecting = false) :
    Inert quiet s s.transportClose := by
  unfold transportClose
  split
  · exact .refl
  next t ht =>
    have hidle : t.connecting = false := by simpa [connecting, ht] using hconnecting
    split_ifs with hclosed hopen
    · exact .refl
    · exact nomatch hidle.symm.trans hopen
    · refine ⟨?_, ?_, by simp [quiet]⟩
      · simp [core, entry, ledger, connecting, notifying, ht, hidle]
      · simp [bridged, ht]

/-- A record that the library sends now is not refused by the transport. -/
def Accepts (answer : Answer) (s : State) : Prop :=
  match answer.bio with
  | some (.send _) => s.mWriteInFlight = false → s.mOutBox = [] →
      s.transportOpen = true ∧ answer.refused = false
  | _ => True

/-- A transport that accepts writes calls nothing back inside the library. -/
theorem bio_frames (hcall : answer.bio = some call) (haccepts : s.Accepts answer)
    (h : s.bio call answer = some r) : r.2 = [] := by
  unfold Accepts at haccepts
  rw [hcall] at haccepts
  cases call with
  | recv len =>
    cases h
    rfl
  | send record =>
    change s.fSend record answer = some r at h
    unfold fSend at h
    split_ifs at h with hbusy
    · cases h
      rfl
    · have hidle : s.mWriteInFlight = false ∧ s.mOutBox = [] := by simpa using hbusy
      obtain ⟨hopen, hrefused⟩ := haccepts hidle.1 hidle.2
      rw [hidle.2] at h
      unfold pumpWrite at h
      dsimp only [List.nil_append] at h
      split_ifs at h
      · cases h
        rfl
      · unfold transportWrite at h
        dsimp only at h
        split at h
        · cases h
        next t ht =>
          have hclosed : t.closed = false := by simpa [transportOpen, ht] using hopen
          split_ifs at h with hshut hconnected
          · exact nomatch hclosed.symm.trans hshut
          · exact absurd (hrefused.symm.trans ‹_›) Bool.false_ne_true
          · cases h
            rfl

/-! ### Functions that lead to the handshake or drain -/

/-- Frames of a re-drive or of attaching the bridge. -/
theorem onRedrive_inert : Inert (fun f => quiet f || kindling f) s s.onRedrive := by
  unfold onRedrive
  split_ifs
  · exact .refl
  · exact redrivePlaintext_inert.mono fun frame h => by rw [h, Bool.true_or]
  · exact ⟨rfl, fun _ h => h, by simp [quiet, kindling]⟩

theorem attachBridge_inert : Inert (fun f => quiet f || kindling f) s (s.attachBridge answer) := by
  unfold attachBridge
  split_ifs
  · exact .refl
  · split
    next error message _ =>
      have hreport : Inert quiet s (finishError error message { s with mConfigured := true }) :=
        { finishError_inert with }
      exact (hreport.mono fun frame h => by rw [h, Bool.true_or]).andThen rfl
    · exact ⟨rfl, fun _ h => h, by simp [quiet, kindling]⟩

theorem captureNotify_inert : Inert draining s s.captureNotify :=
  ⟨rfl, fun _ h => h, by simp [captureNotify, draining]⟩

theorem closeNotify_inert : Inert draining s s.closeNotify := by
  unfold closeNotify
  split_ifs
  · exact ⟨rfl, fun _ h => h, by simp [draining]⟩
  · exact captureNotify_inert

end State

end CxxKit.TlsSocket
