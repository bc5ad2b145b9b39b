import CxxKit.Network.TlsSteps
import Mathlib.Data.List.Count

/-!
The callbacks of the writes of a `TlsSocket`.

A write waits in `mPendingWrites` until the library has accepted all its bytes
or the socket closes.  Its callback is lost in one place: when
`mbedtls_ssl_write` fails, the queue is cleared and only the front is called
back.  A transport that fails a write inside `mbedtls_ssl_write` closes the
socket there, and the reference to the front of the queue is then used after
the front is gone.
-/

namespace CxxKit.TlsSocket

open CxxKit.Network List Option Reentrant State Transition

/-- The bytes of a write that the library has accepted. -/
def acceptedOf (accepted : List (Nat × List UInt8)) (n : Nat) : List UInt8 :=
  (accepted.filter (·.1 == n)).flatMap (·.2)

/-- Each callback is invoked once at most, and with true only if the library has accepted all
bytes of the write; a closed socket has invoked every callback. -/
structure WritesSettled (c : Config State Rest) : Prop where
  once : ∀ n, (c.store.written.map Prod.fst).count n ≤ 1
  complete : ∀ n, (n, true) ∈ c.store.written →
    c.store.writes[n]? = some (acceptedOf c.store.accepted n)
  settled : c.store.mState = .kClosed → ∀ n < c.store.writes.length,
    (c.store.written.map Prod.fst).count n = 1
  defined : c.store.dangling = false

/-- What `mbedtls_ssl_write` may do: no transport write fails inside it, and it fails only
while no other write is queued. -/
def State.Undisturbed (answer : Answer) (s : State) : Prop :=
  s.Accepts answer ∧ (answer.bio = none → tlsWantRetry answer.rc = false → answer.rc ≤ 0 →
    s.mPendingWrites.length = 1)

/-- The condition on the steps of `mbedtls_ssl_write`. -/
def Undisturbed (c : Config State Rest) : Label Call Answer Event → Prop
  | .resume answer => ∀ n todo, c.todo = .rest (.inWrite n) :: todo → c.store.Undisturbed answer
  | _ => True

/-! ### The ledger of writes -/

/-- Every write is pending or called back; what is left of a pending write is what the library
has not accepted. -/
structure Ledger.Kept (l : Ledger) : Prop where
  placed : ∀ n, (l.written.map Prod.fst).count n + (l.pending.map (·.mOnWritten)).count n
    = if n < l.writes.length then 1 else 0
  chunks : ∀ p ∈ l.pending,
    l.writes[p.mOnWritten]? = some (acceptedOf l.accepted p.mOnWritten ++ p.mData)
  complete : ∀ n, (n, true) ∈ l.written → l.writes[n]? = some (acceptedOf l.accepted n)
  known : ∀ p ∈ l.accepted, p.1 < l.writes.length
  defined : l.dangling = false

variable {accepted : List (Nat × List UInt8)} {n : Nat} {frame : Frame Rest}
  {allowed : Frame Rest → Bool} {chunk : List UInt8}

theorem acceptedOf_append_of_ne {m : Nat} (h : m ≠ n) :
    acceptedOf (accepted ++ [(m, chunk)]) n = acceptedOf accepted n := by
  simp [acceptedOf, filter_append, h]

theorem acceptedOf_append_self :
    acceptedOf (accepted ++ [(n, chunk)]) n = acceptedOf accepted n ++ chunk := by
  simp [acceptedOf, filter_append]

theorem acceptedOf_eq_nil (h : ∀ p ∈ accepted, p.1 < n) : acceptedOf accepted n = [] := by
  simp only [acceptedOf, flatMap_eq_nil_iff, mem_filter, beq_iff_eq]
  rintro p ⟨hmem, rfl⟩
  exact absurd (h p hmem) (Nat.lt_irrefl _)

namespace Ledger.Kept

variable {l : Ledger} {head : PendingWrite} {rest : List PendingWrite}

variable (h : l.Kept)
include h

theorem write (data : List UInt8) : Ledger.Kept { l with
      pending := l.pending ++ [⟨l.writes.length, data⟩], writes := l.writes ++ [data] } where
  placed n := by
    have hn := h.placed n
    grind
  chunks p hp := by
    rcases mem_append.mp hp with hold | hnew
    · have hchunk := h.chunks p hold
      have hlt := (List.getElem?_eq_some_iff.mp hchunk).1
      rw [List.getElem?_append_left hlt]
      exact hchunk
    · rw [List.mem_singleton.mp hnew]
      simp [acceptedOf_eq_nil h.known]
  complete n hn := by
    have hcomplete := h.complete n hn
    have hlt := (List.getElem?_eq_some_iff.mp hcomplete).1
    rw [List.getElem?_append_left hlt]
    exact hcomplete
  known p hp := by
    have hlt := h.known p hp
    rw [length_append]
    omega
  defined := h.defined

variable (hpending : l.pending = head :: rest)
include hpending

/-- The callback of the front is invoked, with true only if nothing of it is left. -/
theorem settle {ok : Bool} (hok : ok = true → head.mData = []) : Ledger.Kept { l with
      pending := rest, written := l.written ++ [(head.mOnWritten, ok)] } where
  placed n := by
    have hn := h.placed n
    simp only [hpending, map_append, map_cons, map_nil, count_append, count_cons, count_nil] at hn ⊢
    omega
  chunks p hp := h.chunks p (by rw [hpending]; exact mem_cons_of_mem _ hp)
  complete n hn := by
    rcases mem_append.mp hn with hold | hnew
    · exact h.complete n hold
    · obtain ⟨rfl, htrue⟩ := Prod.mk.inj (mem_singleton.mp hnew)
      have hchunk := h.chunks head (by rw [hpending]; exact mem_cons_self)
      rw [hok htrue.symm, append_nil] at hchunk
      exact hchunk
  known := h.known
  defined := h.defined

/-- A write that is pending is not called back, and is pending once. -/
theorem head_fresh :
    (∀ ok, (head.mOnWritten, ok) ∉ l.written) ∧ ∀ p ∈ rest, p.mOnWritten ≠ head.mOnWritten := by
  have hplaced := h.placed head.mOnWritten
  rw [hpending, map_cons, count_cons_self] at hplaced
  have hzero : (l.written.map Prod.fst).count head.mOnWritten = 0
      ∧ (rest.map (·.mOnWritten)).count head.mOnWritten = 0 := by
    split_ifs at hplaced
    omega
  constructor
  · intro ok hmem
    exact count_eq_zero.mp hzero.1 (mem_map.mpr ⟨_, hmem, rfl⟩)
  · intro p hp heq
    exact count_eq_zero.mp hzero.2 (mem_map.mpr ⟨p, hp, heq⟩)

/-- The library accepts the first bytes of the front. -/
theorem accept {chunk left : List UInt8} (hdata : head.mData = chunk ++ left) : Ledger.Kept { l with
      pending := { head with mData := left } :: rest
      accepted := l.accepted ++ [(head.mOnWritten, chunk)] } := by
  obtain ⟨hfresh, hother⟩ := h.head_fresh hpending
  have hhead := h.chunks head (by rw [hpending]; exact mem_cons_self)
  refine { h with placed := ?_, chunks := ?_, complete := ?_, known := ?_ }
  · have hplaced := h.placed
    rw [hpending] at hplaced
    exact hplaced
  · intro p hp
    rcases mem_cons.mp hp with rfl | htail
    · rw [acceptedOf_append_self, append_assoc, ← hdata]
      exact hhead
    · rw [acceptedOf_append_of_ne (hother p htail).symm]
      exact h.chunks p (by rw [hpending]; exact mem_cons_of_mem _ htail)
  · intro n hn
    have hne : head.mOnWritten ≠ n := fun heq => hfresh true (by rw [heq]; exact hn)
    rw [acceptedOf_append_of_ne hne]
    exact h.complete n hn
  · exact forall_mem_append.mpr
      ⟨h.known, forall_mem_singleton.mpr ((List.getElem?_eq_some_iff.mp hhead).1)⟩

end Ledger.Kept

/-! ### The invariant -/

/-- The socket is closed, or about to be when a write completes. -/
def State.Shut (s : State) : Prop := s.mState = .kClosed ∨ s.notifying = true

/-- Outside `mbedtls_ssl_write`. -/
structure Accounted (s : State) (todo : List (Frame Rest)) : Prop where
  ledger : s.ledger.Kept
  drained : s.Shut ∨ Frame.rest Rest.closed ∈ todo →
    s.mCloseRequested = true ∧ s.mPendingWrites = []
  closing : ∀ frame ∈ todo, draining frame = true → s.mCloseRequested = true
  outside : ∀ n, Frame.rest (Rest.inWrite n) ∉ todo

/-- `mbedtls_ssl_write` is not interrupted, and its reference is to the front. -/
def WritesKept (s : State) : List (Frame Rest) → Prop
  | .rest (.inWrite n) :: todo =>
    Accounted s todo ∧ s.mPendingWrites.head?.map (·.mOnWritten) = some n
  | todo => Accounted s todo

/-- Neither inside `mbedtls_ssl_write` nor part of closing. -/
def harmless : Frame Rest → Bool
  | .rest (.inWrite _) | .rest .closed => false
  | frame => !draining frame

/-- A step that leaves the writes alone. -/
structure Aloof (s : State) (r : Step) : Prop where
  ledger : r.1.ledger = s.ledger
  latched : s.mCloseRequested = true → r.1.mCloseRequested = true
  shut : r.1.Shut → s.Shut
  frames : ∀ frame ∈ r.2, harmless frame = true

variable {s : State} {r : Step} {todo : List (Frame Rest)} {answer : Answer} {k : Rest} {ok : Bool}

theorem harmless_of_quiet (h : quiet frame = true) : harmless frame = true := by
  unfold harmless
  split
  · cases h
  · cases h
  · unfold quiet at h
    split at h
    · rfl
    · split at h <;> first | rfl | cases h

theorem harmless_of_kindling (h : kindling frame = true) : harmless frame = true := by
  unfold kindling at h
  split at h <;> first | rfl | cases h

theorem not_draining_of_harmless (h : harmless frame = true) : draining frame = false := by
  unfold harmless at h
  split at h
  · cases h
  · cases h
  · simpa using h

theorem Inert.shut (h : Inert allowed s r) (hr : r.1.Shut) : s.Shut := by
  have hstate : r.1.mState = s.mState := congrArg (·.entry.mState) h.core
  have hnotifying : r.1.notifying = s.notifying := congrArg Core.notifying h.core
  unfold State.Shut at hr ⊢
  rwa [hstate, hnotifying] at hr

theorem Inert.aloof (h : Inert allowed s r)
    (hallowed : ∀ frame, allowed frame = true → harmless frame = true) : Aloof s r where
  ledger := congrArg Core.ledger h.core
  latched hlatched := (congrArg (·.entry.latched) h.core).trans hlatched
  shut := h.shut
  frames frame hmem := hallowed frame (h.frames frame hmem)

theorem Inert.aloof_of_quiet (h : Inert quiet s r) : Aloof s r :=
  h.aloof fun _ => harmless_of_quiet

theorem Inert.aloof_of_kindling (h : Inert (fun f => quiet f || kindling f) s r) : Aloof s r := by
  refine h.aloof fun frame hframe => ?_
  rcases Bool.or_eq_true_iff.mp hframe with hquiet | hkindling
  · exact harmless_of_quiet hquiet
  · exact harmless_of_kindling hkindling

namespace Aloof

theorem andThen (h : Aloof s r) (hk : harmless (.rest k) = true) : Aloof s (r.andThen k) :=
  { h with frames := forall_mem_append.mpr ⟨h.frames, forall_mem_singleton.mpr hk⟩ }

theorem refl : Aloof s (s, []) := ⟨rfl, id, id, nofun⟩

end Aloof

namespace Accounted

variable (h : Accounted s todo)
include h

theorem aloof (hr : Aloof s r) : r.Leaves Accounted todo where
  ledger := by rw [hr.ledger]; exact h.ledger
  drained hcase := by
    have hpending : r.1.mPendingWrites = s.mPendingWrites := congrArg Ledger.pending hr.ledger
    have hold : s.Shut ∨ Frame.rest Rest.closed ∈ todo := by
      rcases hcase with hshut | hmem
      · exact .inl (hr.shut hshut)
      · rcases mem_append.mp hmem with hnew | hmem
        · cases hr.frames _ hnew
        · exact .inr hmem
    rw [hpending]
    exact ⟨hr.latched (h.drained hold).1, (h.drained hold).2⟩
  closing frame hmem hdraining := by
    rcases mem_append.mp hmem with hnew | hold
    · have hnot := not_draining_of_harmless (hr.frames _ hnew)
      exact nomatch hnot.symm.trans hdraining
    · exact hr.latched (h.closing frame hold hdraining)
  outside n hmem := by
    rcases mem_append.mp hmem with hnew | hold
    · cases hr.frames _ hnew
    · exact h.outside n hold

omit h in
theorem pop {frame : Frame Rest} (h : Accounted s (frame :: todo)) : Accounted s todo where
  ledger := h.ledger
  drained hcase := h.drained (hcase.imp_right (mem_cons_of_mem _))
  closing frame hmem := h.closing frame (mem_cons_of_mem _ hmem)
  outside n hmem := h.outside n (mem_cons_of_mem _ hmem)

/-- A frame of `begin_close` is pushed on a closing socket. -/
theorem push_draining (hlatched : s.mCloseRequested = true) (hk : draining (.rest k) = true) :
    Accounted s (.rest k :: todo) where
  ledger := h.ledger
  drained hcase := by
    refine h.drained (hcase.imp_right fun hmem => ?_)
    rcases mem_cons.mp hmem with heq | hold
    · rw [← heq] at hk
      cases hk
    · exact hold
  closing _ _ _ := hlatched
  outside n hmem := by
    rcases mem_cons.mp hmem with heq | hold
    · rw [← heq] at hk
      cases hk
    · exact h.outside n hold

/-- The last line of `begin_close` is pushed once the queue is empty. -/
theorem push_closed (hlatched : s.mCloseRequested = true) (hempty : s.mPendingWrites = []) :
    Accounted s (.rest .closed :: todo) where
  ledger := h.ledger
  drained _ := ⟨hlatched, hempty⟩
  closing _ _ _ := hlatched
  outside n hmem := h.outside n (by simpa using hmem)

theorem kept : WritesKept s todo := by
  unfold WritesKept
  split
  next n rest => exact absurd mem_cons_self (h.outside n)
  · exact h

end Accounted

/-! ### Functions that leave the writes alone -/

namespace State

theorem invokeConnected_aloof : Aloof s (s.invokeConnected ok) := by
  unfold invokeConnected
  split
  · exact ⟨rfl, id, id, by simp [harmless, draining]⟩
  · exact .refl

theorem failHandshake_aloof : Aloof s s.failHandshake := by
  unfold failHandshake
  split_ifs
  · exact ⟨rfl, id, id, by simp [harmless, draining]⟩
  · have h : Aloof { s with mDone := true } (invokeConnected false { s with mDone := true }) :=
      invokeConnected_aloof
    exact { h.andThen rfl with }

theorem connectFailed_aloof : Aloof s s.connectFailed :=
  (invokeConnected_aloof.andThen rfl).andThen rfl

theorem transportConnect_aloof (h : s.transportConnect answer = some r) : Aloof s r := by
  unfold transportConnect at h
  split at h
  · cases h
  next t ht =>
    split_ifs at h
    · cases h
      exact connectFailed_aloof
    · cases h
      refine ⟨rfl, id, ?_, nofun⟩
      simp [Shut, notifying, ht]

theorem transportClose_aloof : Aloof s s.transportClose := by
  unfold transportClose
  split
  · exact .refl
  next t ht =>
    split_ifs
    · exact .refl
    · have h : Aloof { s with mTransport := some { t with closed := true, connecting := false } }
        (invokeConnected false { s with
          mTransport := some { t with closed := true, connecting := false } }) :=
        invokeConnected_aloof
      refine { h.andThen rfl with shut := fun hshut => ?_ }
      simpa [Shut, notifying, ht] using h.shut hshut
    · refine ⟨rfl, id, ?_, by simp [harmless, draining]⟩
      simp [Shut, notifying, ht]

theorem setupSsl_aloof (h : s.setupSsl answer = some r) : Aloof s r := by
  unfold setupSsl at h
  split_ifs at h
  · cases h
    exact .refl
  · cases h
    exact finishError_inert.aloof_of_quiet
  · split at h
    · cases h
    next t ht =>
      split_ifs at h
      cases h
      refine ⟨rfl, id, ?_, nofun⟩
      simp [Shut, notifying, ht]

theorem driveHandshake_aloof : Aloof s s.driveHandshake := by
  unfold driveHandshake
  split_ifs
  · exact .refl
  · exact ⟨rfl, id, id, by simp [harmless, draining]⟩

theorem handshakeReturned_aloof {rc : Int} : Aloof s (s.handshakeReturned rc) := by
  unfold handshakeReturned
  split_ifs
  · exact ⟨rfl, id, id, by simp [harmless, draining]⟩
  · exact .refl
  · exact finishError_inert.aloof_of_quiet

theorem bio_aloof {call : Bio} (hk : harmless (.rest k) = true)
    (h : s.bio call answer = some r) : Aloof s (r.andThen k) :=
  (bio_inert h).aloof_of_quiet.andThen hk

theorem inHandshake_aloof (h : s.inHandshake answer = some r) : Aloof s r := by
  unfold inHandshake at h
  split_ifs at h
  · rcases library_cases h with ⟨call, r', -, hbio, rfl⟩ | ⟨-, hreturned⟩
    · exact bio_aloof rfl hbio
    · cases hreturned
      exact handshakeReturned_aloof
  · cases h
    exact handshakeReturned_aloof

theorem flushHandshake_aloof (h : s.flushHandshake answer = some r) : Aloof s r := by
  obtain ⟨r', hr', rfl⟩ := map_eq_some_iff.mp h
  exact (pumpWrite_inert hr').aloof_of_quiet.andThen rfl

theorem handshakeConnected_aloof : Aloof s s.handshakeConnected := by
  refine ⟨rfl, id, ?_, by simp [handshakeConnected, setState, harmless, draining]⟩
  rintro (hclosed | hnotifying)
  · cases hclosed
  · exact .inr hnotifying

theorem deliverConnected_aloof : Aloof s (s.deliverConnected answer) := by
  refine Aloof.andThen ?_ rfl
  exact { invokeConnected_aloof with }

theorem recordWritten_aloof : Aloof s (s.recordWritten ok) := by
  unfold recordWritten
  split_ifs
  · exact .refl
  · exact ⟨rfl, id, id, by simp [harmless, draining]⟩
  · exact { finishError_inert.aloof_of_quiet with }

theorem connectSucceeded_aloof : Aloof s s.connectSucceeded := by
  unfold connectSucceeded
  split_ifs
  · exact .refl
  · exact ⟨rfl, id, id, by simp [harmless, draining]⟩

theorem enter_aloof : Aloof s s.enter := by
  refine ⟨rfl, id, ?_, by simp [enter, setState, harmless, draining]⟩
  rintro (hclosed | hnotifying)
  · cases hclosed
  · exact .inr hnotifying

/-- An idle socket is given a transport. -/
theorem withTransport_aloof {t : Transport} (hwriting : t.writing = []) :
    Aloof s ({ s with mTransport := some t }, []) := by
  refine ⟨rfl, id, ?_, nofun⟩
  rintro (hclosed | hnotifying)
  · exact .inl hclosed
  · simp [notifying, hwriting] at hnotifying

theorem setTransport_aloof {connected closed : Bool}
    (h : s.setTransport connected closed = some r) : Aloof s r := by
  unfold setTransport at h
  split_ifs at h
  cases h
  exact withTransport_aloof rfl

theorem connectTls_aloof (h : s.connectTls = some r) : Aloof s r := by
  unfold connectTls at h
  split_ifs at h
  cases h
  have hgiven : Aloof s ({ s with mTransport := some {} }, []) := withTransport_aloof rfl
  refine Aloof.andThen ⟨rfl, id, fun hshut => hgiven.shut (enter_aloof.shut hshut), ?_⟩ rfl
  exact enter_aloof.frames

theorem startTls_aloof (h : s.startTls = some r) : Aloof s r := by
  unfold startTls at h
  split_ifs at h
  cases h
  exact (enter_aloof.andThen rfl).andThen rfl

theorem onConnectDone_aloof (h : s.onConnectDone ok = some r) : Aloof s r := by
  unfold onConnectDone at h
  split at h
  · cases h
  next t ht =>
    split at h
    case isFalse => cases h
    let u : State := { s with mTransport := some { t with connecting := false, connected := ok } }
    have hgiven : u.Shut → s.Shut := by simp [u, Shut, notifying, ht]
    cases ok with
    | true =>
      cases h
      have haloof : Aloof u u.connectSucceeded := connectSucceeded_aloof
      exact { haloof with shut := hgiven ∘ haloof.shut }
    | false =>
      cases h
      have haloof : Aloof u u.connectFailed := connectFailed_aloof
      exact { haloof with shut := hgiven ∘ haloof.shut }

theorem onRead_aloof {bytes : List UInt8} (h : s.onRead bytes = some r) : Aloof s r := by
  unfold onRead at h
  split_ifs at h
  cases h
  exact ⟨rfl, id, id, by simp [harmless, draining]⟩

theorem onReadFailed_aloof (h : s.onReadFailed = some r) : Aloof s r := by
  unfold onReadFailed at h
  split_ifs at h
  · cases h
    exact finishError_inert.aloof_of_quiet.andThen rfl
  · cases h
    exact ⟨rfl, id, id, by simp [Outcome.andThen, harmless, draining]⟩
  · cases h
    exact Aloof.refl.andThen rfl

end State

/-! ### Functions that settle writes -/

namespace Accounted

theorem push (h : Accounted s todo) (fs : List (Frame Rest))
    (hfs : ∀ frame ∈ fs, harmless frame = true) : Accounted s (fs ++ todo) :=
  h.aloof (r := (s, fs)) ⟨rfl, id, id, hfs⟩

variable {rest : List PendingWrite} {head : PendingWrite}

theorem settle (h : Accounted s todo)
    (hpending : s.mPendingWrites = head :: rest) (hok : ok = true → head.mData = []) :
    Accounted { s with
      mPendingWrites := rest, written := s.written ++ [(head.mOnWritten, ok)] }
      (.callback :: todo) where
  ledger := h.ledger.settle hpending hok
  drained hcase := by
    have hempty := (h.drained (hcase.imp_right fun hmem => by simpa using hmem)).2
    rw [hpending] at hempty
    cases hempty
  closing frame hmem hdraining := by
    rcases mem_cons.mp hmem with rfl | hold
    · cases hdraining
    · exact h.closing frame hold hdraining
  outside n hmem := h.outside n (by simpa using hmem)

theorem accept {chunk left : List UInt8}
    (h : Accounted s todo) (hpending : s.mPendingWrites = head :: rest)
    (hdata : head.mData = chunk ++ left) :
    Accounted { s with
      mPendingWrites := { head with mData := left } :: rest
      accepted := s.accepted ++ [(head.mOnWritten, chunk)] } todo where
  ledger := h.ledger.accept hpending hdata
  drained hcase := by
    have hempty := (h.drained hcase).2
    rw [hpending] at hempty
    cases hempty
  closing := h.closing
  outside := h.outside

end Accounted

namespace State

section

variable (h : Accounted s todo)

include h

theorem beginClose_accounted : s.beginClose.Leaves Accounted todo := by
  unfold beginClose
  split_ifs with hlatched hclosed
  · exact h
  · exact absurd (h.drained (.inl (.inl hclosed))).1 hlatched
  · have hbase : Accounted { s with mCloseRequested := true, mState := .kClosing } todo := by
      refine { h with drained := fun hcase => ⟨rfl, ?_⟩, closing := fun _ _ _ => rfl }
      refine (h.drained (hcase.imp_left fun hshut => ?_)).2
      rcases hshut with hstate | hnotifying
      · cases hstate
      · exact .inr hnotifying
    exact (hbase.push_draining rfl rfl).push [.callback] (by simp [harmless, draining])

section

variable (hlatched : s.mCloseRequested = true)
include hlatched

theorem captureNotify_accounted : s.captureNotify.Leaves Accounted todo := by
  have hbase : Accounted { s with mOutBox := [] } todo := { h with }
  exact hbase.push_draining hlatched rfl

theorem closeNotify_accounted : s.closeNotify.Leaves Accounted todo := by
  unfold closeNotify
  split_ifs
  · exact h.push_draining hlatched rfl
  · exact captureNotify_accounted h hlatched

section

variable (hempty : s.mPendingWrites = [])
include hempty

theorem closed_accounted : Accounted (s.setState .kClosed).1 (.callback :: todo) := by
  have hbase : Accounted { s with mState := .kClosed } todo :=
    { h with drained := fun _ => ⟨hlatched, hempty⟩ }
  exact hbase.push [.callback] (by simp [harmless, draining])

/-- The transport closes, and the socket after it. -/
theorem transportClose_closed_accounted :
    (s.transportClose.andThen .closed).Leaves Accounted todo := by
  rw [Outcome.leaves_andThen]
  exact (h.push_closed hlatched hempty).aloof transportClose_aloof

theorem notifyWritten_accounted : s.notifyWritten.Leaves Accounted todo := by
  unfold notifyWritten
  split_ifs
  · exact h
  · exact transportClose_closed_accounted h hlatched hempty

theorem closeTransport_accounted {notify : List UInt8}
    (hclose : s.closeTransport notify answer = some r) : r.Leaves Accounted todo := by
  unfold closeTransport at hclose
  split at hclose
  · cases hclose
    exact closed_accounted h hlatched hempty
  next t ht =>
    -- whatever becomes of the transport, the queue is empty
    have hbase : ∀ u, Accounted { s with mTransport := some u } todo := fun u =>
      { h with drained := fun _ => ⟨hlatched, hempty⟩ }
    split_ifs at hclose
    · cases hclose
      exact transportClose_closed_accounted (hbase _) hlatched hempty
    · unfold transportWrite at hclose
      dsimp only at hclose
      split_ifs at hclose
      · cases hclose
        exact notifyWritten_accounted (hbase _) hlatched hempty
      · cases hclose
        exact notifyWritten_accounted (hbase _) hlatched hempty
      · cases hclose
        exact hbase _

end

theorem discardWrites_accounted {notify : List UInt8}
    (hdiscard : s.discardWrites notify answer = some r) : r.Leaves Accounted todo := by
  unfold discardWrites at hdiscard
  split at hdiscard
  next hempty => exact closeTransport_accounted h hlatched hempty hdiscard
  next pending rest hpending =>
    cases hdiscard
    exact (h.push_draining hlatched rfl).settle hpending nofun

end

theorem onWriteDone_accounted (hevent : s.onWriteDone ok = some r) : r.Leaves Accounted todo := by
  unfold onWriteDone at hevent
  split at hevent
  · cases hevent
  next t ht =>
    split at hevent
    · cases hevent
    · next write rest hwriting =>
        cases hevent
        have hbase : Accounted { s with mTransport := some { t with writing := rest } } todo := by
          refine { h with drained := fun hcase => h.drained (hcase.imp_left fun hshut => ?_) }
          rcases hshut with hstate | hnotifying
          · exact .inl hstate
          · refine .inr ?_
            simp only [notifying, any_some] at hnotifying
            simp [notifying, ht, hwriting]
            exact .inr (by simpa using hnotifying)
        cases write with
        | record => exact hbase.aloof recordWritten_aloof
        | notify =>
          have hshut : s.Shut := .inr (by simp [notifying, ht, hwriting])
          obtain ⟨hlatched, hempty⟩ := h.drained (.inl hshut)
          exact notifyWritten_accounted hbase hlatched hempty

theorem write_accounted {data : List UInt8}
    (hcall : s.write data = some r) : r.Leaves Accounted todo := by
  unfold write at hcall
  split_ifs at hcall with hopen
  cases hcall
  have hbase : Accounted { s with
      mPendingWrites := s.mPendingWrites ++ [⟨s.writes.length, data⟩]
      writes := s.writes ++ [data] } todo := by
    refine { h with ledger := h.ledger.write data, drained := fun hcase => ?_ }
    have hlatched := (h.drained hcase).1
    exact nomatch hopen.2.symm.trans hlatched
  exact hbase.push [.rest .pumpPlaintextWrite, .rest .pumpPlaintext] (by simp [harmless, draining])

theorem pumpPlaintextWrite_kept : s.pumpPlaintextWrite.Leaves WritesKept todo := by
  unfold pumpPlaintextWrite
  split_ifs
  · split
    · exact h.kept
    next head rest hpending =>
      split_ifs with hdata
      · have hnext : Accounted s (.rest .pumpPlaintextWrite :: todo) :=
          h.push [.rest .pumpPlaintextWrite] (by simp [harmless, draining])
        exact (hnext.settle hpending fun _ => hdata).kept
      · exact ⟨h, by rw [hpending]; rfl⟩
  · exact h.kept

/-- `mbedtls_ssl_write` returns, with the front of the queue where it was. -/
theorem writeReturned_kept {n : Nat} {rc : Int}
    (hhead : s.mPendingWrites.head?.map (·.mOnWritten) = some n)
    (halone : tlsWantRetry rc = false → rc ≤ 0 → s.mPendingWrites.length = 1) :
    (s.writeReturned n rc).Leaves Accounted todo := by
  unfold writeReturned
  by_cases hretry : tlsWantRetry rc = true
  · rw [if_pos hretry]
    exact h
  · rw [if_neg hretry]
    split
    next hempty =>
      rw [hempty] at hhead
      cases hhead
    next head rest hpending =>
      rw [hpending] at hhead
      obtain rfl : head.mOnWritten = n := by simpa using hhead
      have hsingle : rc ≤ 0 → rest = [] := by
        intro hfailed
        have hone := halone (eq_false_of_ne_true hretry) hfailed
        simpa [hpending] using hone
      have hfail : ∀ k, harmless (.rest k) = true → rest = [] →
          Accounted { s with
            mPendingWrites := [], written := s.written ++ [(head.mOnWritten, false)] }
            (.callback :: .rest k :: todo) := by
        rintro k hk rfl
        have hnext : Accounted s (.rest k :: todo) := h.push [.rest k] (by simpa using hk)
        exact hnext.settle hpending nofun
      split_ifs with hsame hclosed hnegative hfull
      · exact absurd rfl hsame
      · refine hfail _ rfl (hsingle ?_)
        rcases hclosed with rfl | rfl
        · decide
        · exact Int.le_refl 0
      · exact hfail _ rfl (hsingle (Int.le_of_lt hnegative))
      · have hnext : Accounted s (.rest .pumpPlaintextWrite :: todo) :=
          h.push [.rest .pumpPlaintextWrite] (by simp [harmless, draining])
        have htaken := hnext.accept hpending (append_nil head.mData).symm
        exact { htaken.settle rfl fun _ => rfl with }
      · exact h.accept hpending (take_append_drop rc.toNat head.mData).symm

end

end State

/-! ### Every run -/

theorem Accounted.call {a : Call} (h : Accounted s todo) (hcall : call s a = some r) :
    r.Leaves Accounted todo := by
  cases a with
  | setVerifyMode mode | setCaPath path | setCertificate path | setPrivateKey path | readStop =>
    cases hcall
    exact { h with }
  | setTransport connected closed => exact h.aloof (setTransport_aloof hcall)
  | connectTls => exact h.aloof (connectTls_aloof hcall)
  | startTls => exact h.aloof (startTls_aloof hcall)
  | write data => exact write_accounted h hcall
  | readStart =>
    cases hcall
    have hbase : Accounted { s with mOnData := true } todo := { h with }
    exact hbase.push [.rest .pumpPlaintext] (by simp [harmless, draining])
  | close =>
    cases hcall
    unfold close
    split_ifs
    · exact h
    · exact beginClose_accounted h

/-- A function other than `mbedtls_ssl_write` goes on. -/
theorem Accounted.resumed (h : Accounted s (.rest k :: todo))
    (hresume : resume s k answer = some r) : r.Leaves WritesKept todo := by
  have hbase := h.pop
  cases k with
  | transportConnect => exact (hbase.aloof (transportConnect_aloof hresume)).kept
  | attachBridge =>
    cases hresume
    exact (hbase.aloof attachBridge_inert.aloof_of_kindling).kept
  | setupSsl => exact (hbase.aloof (setupSsl_aloof hresume)).kept
  | driveHandshake =>
    cases hresume
    exact (hbase.aloof driveHandshake_aloof).kept
  | inHandshake => exact (hbase.aloof (inHandshake_aloof hresume)).kept
  | flushHandshake => exact (hbase.aloof (flushHandshake_aloof hresume)).kept
  | handshakeConnected =>
    cases hresume
    exact (hbase.aloof handshakeConnected_aloof).kept
  | deliverConnected =>
    cases hresume
    exact (hbase.aloof deliverConnected_aloof).kept
  | failHandshake =>
    cases hresume
    exact (hbase.aloof failHandshake_aloof).kept
  | beginClose =>
    cases hresume
    exact (beginClose_accounted hbase).kept
  | closeNotify =>
    cases hresume
    have hlatched := h.closing _ mem_cons_self rfl
    exact (closeNotify_accounted hbase hlatched).kept
  | inCloseNotify =>
    have hlatched := h.closing _ mem_cons_self rfl
    have hlibrary : s.library .inCloseNotify (fun s => some s.captureNotify) answer = some r :=
      hresume
    rcases library_cases hlibrary with ⟨call, r', -, hbio, rfl⟩ | ⟨-, hreturned⟩
    · rw [Outcome.leaves_andThen]
      exact (h.aloof (bio_inert hbio).aloof_of_quiet).kept
    · cases hreturned
      exact (captureNotify_accounted hbase hlatched).kept
  | discardWrites notify =>
    have hlatched := h.closing _ mem_cons_self rfl
    exact (discardWrites_accounted hbase hlatched hresume).kept
  | closed =>
    cases hresume
    obtain ⟨hlatched, hempty⟩ := h.drained (.inr mem_cons_self)
    exact (closed_accounted hbase hlatched hempty).kept
  | transportClose =>
    cases hresume
    exact (hbase.aloof transportClose_aloof).kept
  | pumpWrite => exact (hbase.aloof (pumpWrite_inert hresume).aloof_of_quiet).kept
  | onRedrive =>
    cases hresume
    exact (hbase.aloof onRedrive_inert.aloof_of_kindling).kept
  | redrivePlaintext =>
    cases hresume
    exact (hbase.aloof redrivePlaintext_inert.aloof_of_quiet).kept
  | pumpPlaintextWrite =>
    cases hresume
    exact pumpPlaintextWrite_kept hbase
  | inWrite n => exact absurd mem_cons_self (h.outside n)
  | writePeerClosed =>
    cases hresume
    have hnext : Accounted { s with mLastError := .kTlsPeerClosed } todo := { hbase with }
    exact (hnext.push [.rest .beginClose] (by simp [harmless, draining])).kept
  | writeFailed rc =>
    cases hresume
    exact (hbase.aloof finishError_inert.aloof_of_quiet).kept
  | pumpPlaintext => exact (hbase.aloof (pumpPlaintext_inert hresume).aloof_of_quiet).kept
  | inRead =>
    rcases library_cases hresume with ⟨call, r', -, hbio, rfl⟩ | ⟨-, hreturned⟩
    · exact (hbase.aloof (bio_aloof rfl hbio)).kept
    · exact (hbase.aloof (readReturned_inert hreturned).aloof_of_quiet).kept
  | peerClosed message =>
    cases hresume
    exact (hbase.aloof peerClosed_inert.aloof_of_quiet).kept
  | compact =>
    cases hresume
    have hnext : Accounted s.compact todo := { hbase with }
    exact hnext.kept

theorem Accounted.resumed_inWrite (h : Accounted s todo)
    (hhead : s.mPendingWrites.head?.map (·.mOnWritten) = some n)
    (hundisturbed : s.Undisturbed answer) (hresume : resume s (.inWrite n) answer = some r) :
    r.Leaves WritesKept todo := by
  have hlibrary : s.library (.inWrite n) (fun s => some (s.writeReturned n answer.rc)) answer
      = some r := hresume
  rcases library_cases hlibrary with ⟨call, r', hcall, hbio, rfl⟩ | ⟨hnone, hreturned⟩
  · have hinert := bio_inert hbio
    have hbase := h.aloof hinert.aloof_of_quiet
    have hpending : r'.1.mPendingWrites = s.mPendingWrites :=
      congrArg (·.ledger.pending) hinert.core
    have hframes := bio_frames hcall hundisturbed.1 hbio
    rw [Outcome.Leaves, hframes] at hbase
    rw [Outcome.Leaves, Outcome.andThen_fst, Outcome.andThen_snd, hframes]
    exact ⟨hbase, by rw [hpending]; exact hhead⟩
  · cases hreturned
    exact (writeReturned_kept h hhead (hundisturbed.2 hnone)).kept

theorem WritesKept.accounted (h : WritesKept s todo)
    (hout : ∀ n rest, todo ≠ .rest (.inWrite n) :: rest) : Accounted s todo := by
  unfold WritesKept at h
  split at h
  next n rest => exact absurd rfl (hout n rest)
  · exact h

variable {c : Config State Rest}

theorem WritesKept.step {d : Config State Rest} {a : Label Call Answer Event}
    (h : WritesKept c.store c.todo) (hundisturbed : Undisturbed c a)
    (hstep : program.step c a = some d) : WritesKept d.store d.todo := by
  cases Program.step_effect hstep with
  | call s todo a r htop hcall => exact ((h.accounted fun n => htop (.inWrite n)).call hcall).kept
  | ret s todo => exact (h.accounted nofun).pop.kept
  | resume s k todo answer r hresume =>
    by_cases hk : ∃ n, k = .inWrite n
    · obtain ⟨n, rfl⟩ := hk
      exact h.1.resumed_inWrite h.2 (hundisturbed n todo rfl) hresume
    · refine (h.accounted ?_).resumed hresume
      rintro n rest heq
      cases heq
      exact hk ⟨n, rfl⟩
  | event s e r hevent =>
    have hbase : Accounted s [] := h
    have hover : r.Leaves Accounted [] := by
      cases e with
      | onConnectDone ok => exact hbase.aloof (onConnectDone_aloof hevent)
      | onWriteDone ok => exact onWriteDone_accounted hbase hevent
      | onRead bytes => exact hbase.aloof (onRead_aloof hevent)
      | onReadFailed => exact hbase.aloof (onReadFailed_aloof hevent)
    rw [Outcome.Leaves, append_nil] at hover
    exact hover.kept

/-- Every write has been answered or waits in the queue, once. -/
theorem State.count_placed (h : s.ledger.Kept) (n : Nat) :
    (s.written.map Prod.fst).count n + (s.mPendingWrites.map (·.mOnWritten)).count n =
      if n < s.writes.length then 1 else 0 := h.placed n

theorem Ledger.Kept.settled (h : c.store.ledger.Kept)
    (hdrained : c.store.mState = .kClosed → c.store.mPendingWrites = []) : WritesSettled c where
  once n := by
    have hplaced := count_placed h n
    split_ifs at hplaced <;> omega
  complete := h.complete
  settled hclosed n hn := by
    have hplaced := count_placed h n
    rw [hdrained hclosed, if_pos hn] at hplaced
    exact hplaced
  defined := h.defined

theorem WritesKept.settled (h : WritesKept c.store c.todo) : WritesSettled c := by
  obtain ⟨s, todo⟩ := c
  have hsome : ∃ rest, Accounted s rest := by
    unfold WritesKept at h
    split at h
    · exact ⟨_, h.1⟩
    · exact ⟨_, h⟩
  obtain ⟨rest, haccounted⟩ := hsome
  exact haccounted.ledger.settled fun hclosed => (haccounted.drained (.inl (.inl hclosed))).2

/-- **Writes are settled**, in every run of writes, library results, transport callbacks and closes
in which `mbedtls_ssl_write` meets the condition. A failure of it clears the queue and calls back
the front alone, and closing inside it empties the queue it works on. -/
theorem tls_writes_settled (run : List (Label Call Answer Event))
    (hundisturbed : program.machine.Meets Undisturbed program.machine.init run) :
    program.machine.Always WritesSettled program.machine.init run := by
  have hinit : Accounted {} [] := by
    refine ⟨?_, ?_, nofun, nofun⟩
    · constructor <;> simp [ledger]
    · simp [State.Shut, notifying]
  exact (Machine.always_of_meets (I := fun c : Config State Rest => WritesKept c.store c.todo)
    (fun _ _ _ h hc hstep => h.step hc hstep) hinit.kept hundisturbed).mono fun _ h => h.settled

/-- A server whose handshake succeeds at once. -/
def started : List (Label Call Answer Event) :=
  [.call (.setTransport true false), .call .startTls, .ret, .resume {}, .resume {}, .resume {},
    .resume {}, .resume {}, .resume {}, .ret, .resume {}, .ret, .resume {}]

/-- Two pending writes: the library blocks on the first and later accepts it, then blocks on the
second, which `close` discards. -/
theorem tls_writes_settled_two_writes : program.machine.Always WritesSettled program.machine.init
      (started ++ [.call (.write [1]), .resume {}, .resume { rc := errSslWantWrite }, .resume {},
        .call (.write [2]), .resume {}, .resume { rc := 1 }, .ret, .resume {},
        .resume { rc := errSslWantWrite }, .resume {}, .call .close, .ret, .resume {}, .resume {},
        .resume {}, .ret, .resume {}, .ret, .resume {}, .ret]) := by
  have hblocks : ∀ s : State, s.Undisturbed { rc := errSslWantWrite } :=
    fun _ => ⟨trivial, nofun⟩
  apply tls_writes_settled
  iterate 15
    rintro _ ⟨⟩
    refine ⟨by first | trivial | nofun, ?_⟩
  rintro _ ⟨⟩
  refine ⟨fun _ _ _ => hblocks _, ?_⟩
  iterate 3
    rintro _ ⟨⟩
    refine ⟨by first | trivial | nofun, ?_⟩
  rintro _ ⟨⟩
  refine ⟨fun _ _ _ => ⟨trivial, fun _ _ hle => absurd hle (by decide)⟩, ?_⟩
  iterate 2
    rintro _ ⟨⟩
    refine ⟨by first | trivial | nofun, ?_⟩
  rintro _ ⟨⟩
  refine ⟨fun _ _ _ => hblocks _, ?_⟩
  iterate 11
    rintro _ ⟨⟩
    refine ⟨by first | trivial | nofun, ?_⟩
  trivial

/-- Two writes: the library blocks on the first, then finds the session closed by the peer. The
socket is closed and the second callback has not been invoked. -/
theorem queued_write_forgotten : ∃ c : Config State Rest, program.machine.run program.machine.init
      (started ++ [.call (.write [1]), .resume {}, .resume { rc := errSslWantWrite }, .resume {},
        .call (.write [2]), .resume {}, .resume { rc := 0 }, .ret, .resume {}, .resume {}, .ret,
        .resume {}, .resume {}, .resume {}, .ret, .resume {}]) = some c
      ∧ ¬ WritesSettled c := by
  refine ⟨_, rfl, fun h => ?_⟩
  have hinvoked : 0 = 1 := h.settled rfl 1 (by decide)
  cases hinvoked

end CxxKit.TlsSocket
