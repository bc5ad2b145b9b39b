import CxxKit.Lib.Indexed
import CxxKit.Lib.Transition

/-!
The barrier (`Barrier::arrive_and_wait`, `Barrier::arrive_and_drop`).

Each locked section is one step; `wait` gives the lock back, so a waiting participant takes one
step for every wake-up, notified or spurious, in which it tests the phase again.  The counters are
of `size_t`, and the phase may go round.

Phases are numbered by how often the barrier has opened before; what each participant did in which
phase is recorded.  The source stores neither.
-/

namespace CxxKit.Barrier

open Indexed List Option

/-- Between two calls, in `arrive_and_wait` with the phase it has read, or after
`arrive_and_drop`. -/
inductive Participant where
  | outside
  | waiting (currentPhase : UInt64) (phase : Nat)
  | dropped
deriving DecidableEq, Repr

inductive Happening where
  | arrived (participant phase : Nat)
  | dropped (participant phase : Nat)
  | left (participant phase : Nat)
deriving DecidableEq, Repr

structure State where
  mNumThreads : UInt64
  mCount : UInt64
  mPhase : UInt64
  participants : List Participant
  phase : Nat
  log : List Happening

inductive Action where
  | arriveAndWait (t : Nat)
  | wake (t : Nat)
  | arriveAndDrop (t : Nat)
deriving DecidableEq, Repr

namespace State

variable (s : State)

def init (numThreads : UInt64) : State :=
  ⟨numThreads, numThreads, 0, List.replicate numThreads.toNat .outside, 0, []⟩

/-- The last participant has arrived: the counter is reset and the phase advanced. -/
def release : State :=
  { s with mCount := s.mNumThreads, mPhase := s.mPhase + 1, phase := s.phase + 1 }

/-- `arrive_and_wait` up to the first wait; the last participant does not wait. -/
def arriveAndWait (t : Nat) : State :=
  let arrived := { s with mCount := s.mCount - 1, log := .arrived t s.phase :: s.log }
  if arrived.mCount = 0 then
    { arrived.release with log := .left t s.phase :: arrived.log }
  else { arrived with participants := s.participants.set t (.waiting s.mPhase s.phase) }

/-- A waiting participant takes the lock again and tests the phase. -/
def wake (t : Nat) (currentPhase : UInt64) (phase : Nat) : State :=
  if s.mPhase ≠ currentPhase then
    { s with participants := s.participants.set t .outside, log := .left t phase :: s.log }
  else s

def arriveAndDrop (t : Nat) : State :=
  let dropped := { s with
    mNumThreads := s.mNumThreads - 1
    mCount := s.mCount - 1
    participants := s.participants.set t .dropped
    log := .dropped t s.phase :: s.log }
  if dropped.mCount = 0 then dropped.release else dropped

/-- Participants make their calls one after the other and none after their drop. -/
def step : Action → Option State
  | .arriveAndWait t =>
    if s.participants[t]? = some .outside then some (s.arriveAndWait t) else none
  | .wake t => match s.participants[t]? with
      | some (.waiting currentPhase phase) => some (s.wake t currentPhase phase)
      | _ => none
  | .arriveAndDrop t =>
    if s.participants[t]? = some .outside then some (s.arriveAndDrop t) else none

end State

/-- A barrier and its participants. -/
def machine (numThreads : UInt64) : Transition.Machine State Action where
  init := .init numThreads
  step := State.step

def Participant.present (p : Participant) : Bool := p ≠ .dropped

/-- The participant has arrived in the phase, or had dropped before it or in it. -/
def Arrived (log : List Happening) (t phase : Nat) : Prop :=
  .arrived t phase ∈ log ∨ ∃ k ≤ phase, .dropped t k ∈ log

open Participant

/-- Nobody has left a phase before every participant there still was arrived in it, and the
remaining count is between one and the number of participants while there are any. -/
structure State.Safe (numThreads : UInt64) (s : State) : Prop where
  left : ∀ t phase earlier, .left t phase :: earlier <:+ s.log →
    ∀ u < numThreads.toNat, Arrived earlier u phase
  expected : s.mNumThreads.toNat = s.participants.countP present
  remaining : (∃ p ∈ s.participants, p ≠ .dropped) →
    1 ≤ s.mCount.toNat ∧ s.mCount.toNat ≤ s.mNumThreads.toNat

/-! ### The remaining count -/

/-- The participant has yet to arrive in the phase: one that was released and has not woken up
counts. -/
def Participant.awaited (phase : Nat) : Participant → Bool
  | .outside => true
  | .waiting _ k => k ≠ phase
  | .dropped => false

theorem Participant.present_of_awaited {phase : Nat} {p : Participant}
    (h : p.awaited phase = true) : p.present = true := by
  cases p with
  | outside => rfl
  | waiting _ _ => rfl
  | dropped => cases h

theorem Arrived.mono {log log' : List Happening} {t phase : Nat} (h : Arrived log t phase)
    (hsub : log ⊆ log') : Arrived log' t phase := by
  rcases h with harrived | ⟨k, hk, hdropped⟩
  · exact .inl (hsub harrived)
  · exact .inr ⟨k, hk, hsub hdropped⟩

/-- What the log knows of a participant at the point it stands at. -/
def Participant.Logged (log : List Happening) (t phase : Nat) : Participant → Prop
  | .outside => True
  | .waiting currentPhase k => currentPhase = .ofNat k ∧ (k = phase ∨ k + 1 = phase) ∧
      .arrived t k ∈ log
  | .dropped => ∃ k ≤ phase, .dropped t k ∈ log

/-- The counters against the participants, in every state between two steps. -/
structure State.Sound (numThreads : UInt64) (s : State) : Prop where
  length : s.participants.length = numThreads.toNat
  expected : s.mNumThreads.toNat = s.participants.countP present
  count : s.mCount.toNat = s.participants.countP (awaited s.phase)
  positive : 0 < s.participants.countP present →
    0 < s.participants.countP (awaited s.phase)
  counter : s.mPhase = .ofNat s.phase
  logged : ∀ (t : Nat) (p : Participant), s.participants[t]? = some p → p.Logged s.log t s.phase
  past : ∀ k < s.phase, ∀ u < numThreads.toNat, Arrived s.log u k
  left : ∀ t phase earlier, .left t phase :: earlier <:+ s.log →
    ∀ u < numThreads.toNat, Arrived earlier u phase

section Counting

variable {numThreads : UInt64} {s : State} {t : Nat} {p q : Participant}

section

variable (h : s.Sound numThreads) {c : UInt64} {u : Nat}
include h

theorem State.Sound.safe : s.Safe numThreads where
  left := h.left
  expected := h.expected
  remaining := by
    rintro ⟨p, hp, hpresent⟩
    have hpos : 0 < s.participants.countP present :=
      countP_pos_iff.mpr ⟨p, hp, decide_eq_true hpresent⟩
    rw [h.count, h.expected]
    refine ⟨h.positive hpos, countP_mono_left fun p _ hp => ?_⟩
    exact present_of_awaited hp

omit h in
/-- A decrement of a counter that is not zero. -/
theorem toNat_pred (h : 0 < c.toNat) : (c - 1).toNat = c.toNat - 1 := by
  have hle : (1 : UInt64) ≤ c := UInt64.le_iff_toNat_le.mpr h
  rw [UInt64.toNat_sub_of_le _ _ hle]
  rfl

omit h in
theorem eq_zero_iff : c = 0 ↔ c.toNat = 0 := by
  rw [← UInt64.toNat_inj]
  rfl

/-- A participant that the phase still waits for. -/
theorem State.Sound.count_pos (ht : s.participants[t]? = some p) (hp : p.awaited s.phase = true) :
    0 < s.mCount.toNat := by
  rw [h.count]
  exact countP_pos_iff.mpr ⟨p, mem_of_getElem? ht, hp⟩

/-- When the last awaited participant arrives, all others have. -/
theorem State.Sound.others (ht : s.participants[t]? = some p) (hp : p.awaited s.phase = true)
    (hlast : s.mCount.toNat = 1) (hut : u ≠ t) (hu : s.participants[u]? = some q) :
    q.awaited s.phase = false := by
  have hset := countP_set_add (awaited s.phase) .dropped ht
  rw [hp, ← h.count, hlast] at hset
  have hzero : (s.participants.set t .dropped).countP (awaited s.phase) = 0 := by
    simpa [awaited] using hset
  have hmem : q ∈ s.participants.set t .dropped :=
    mem_of_getElem? (by rw [getElem?_set_ne hut.symm]; exact hu)
  exact eq_false_of_ne_true (countP_eq_zero.mp hzero q hmem)

/-- Then everyone else has arrived in the phase. -/
theorem State.Sound.all_arrived (ht : s.participants[t]? = some .outside)
    (hlast : s.mCount.toNat = 1) (hu : u < numThreads.toNat) (hut : u ≠ t) :
    Arrived s.log u s.phase := by
  obtain ⟨q, hq⟩ : ∃ q, s.participants[u]? = some q :=
    ⟨_, getElem?_eq_getElem (by rw [h.length]; exact hu)⟩
  have hawaited := h.others ht rfl hlast hut hq
  have hlogged := h.logged u q hq
  cases q with
  | outside => cases hawaited
  | waiting currentPhase k =>
    obtain rfl : k = s.phase := by simpa [awaited] using hawaited
    exact .inl hlogged.2.2
  | dropped => exact .inr hlogged

end

theorem Participant.Logged.mono {log log' : List Happening} {t phase : Nat}
    (h : p.Logged log t phase) (hsub : log ⊆ log') : p.Logged log' t phase := by
  cases p with
  | outside => trivial
  | waiting currentPhase k => exact ⟨h.1, h.2.1, hsub h.2.2⟩
  | dropped =>
    obtain ⟨k, hk, hmem⟩ := h
    exact ⟨k, hk, hsub hmem⟩

/-- What is logged of a participant that has arrived, or is outside, when the phase advances. -/
theorem Participant.Logged.advance {log : List Happening} {t phase : Nat} (h : p.Logged log t phase)
    (harrived : p = .outside ∨ p.awaited phase = false) :
    p.Logged log t (phase + 1) ∧ p.awaited (phase + 1) = p.present := by
  cases p with
  | outside => exact ⟨trivial, rfl⟩
  | waiting currentPhase k =>
    obtain rfl : k = phase := by simpa [awaited] using harrived
    refine ⟨⟨h.1, .inr rfl, h.2.2⟩, ?_⟩
    simp [awaited, present]
  | dropped =>
    obtain ⟨k, hk, hmem⟩ := h
    exact ⟨⟨k, Nat.le_succ_of_le hk, hmem⟩, rfl⟩

/-- The phase advances when everyone has arrived in it. -/
theorem release_sound (hlength : s.participants.length = numThreads.toNat)
    (hexpected : s.mNumThreads.toNat = s.participants.countP present)
    (hcounter : s.mPhase = .ofNat s.phase)
    (hlogged : ∀ (t : Nat) (p : Participant), s.participants[t]? = some p →
      p.Logged s.log t s.phase ∧ (p = .outside ∨ p.awaited s.phase = false))
    (hpast : ∀ k ≤ s.phase, ∀ u < numThreads.toNat, Arrived s.log u k)
    (hleft : ∀ t phase earlier, .left t phase :: earlier <:+ s.log →
      ∀ u < numThreads.toNat, Arrived earlier u phase) : s.release.Sound numThreads := by
  have hcount : s.participants.countP (awaited (s.phase + 1)) =
      s.participants.countP present := by
    apply countP_congr
    intro p hp
    obtain ⟨t, ht⟩ := mem_iff_getElem?.mp hp
    obtain ⟨hlog, harrived⟩ := hlogged t p ht
    rw [(hlog.advance harrived).2]
  refine ⟨hlength, hexpected, ?_, ?_, ?_, ?_, ?_, hleft⟩
  · exact hexpected.trans hcount.symm
  · intro hpos
    exact hcount.symm ▸ hpos
  · unfold State.release
    rw [hcounter, UInt64.ofNat_add]
    rfl
  · intro t p ht
    obtain ⟨hlog, harrived⟩ := hlogged t p ht
    exact (hlog.advance harrived).1
  · exact fun k hk => hpast k (Nat.le_of_lt_succ hk)

end Counting

/-! ### Runs -/

section Runs

variable {numThreads : UInt64} {s s' : State} {t : Nat}

/-- What was logged stays logged. -/
theorem State.Sound.logged_cons (h : s.Sound numThreads) (x : Happening) {u : Nat}
    {p : Participant} (hu : s.participants[u]? = some p) : p.Logged (x :: s.log) u s.phase :=
  (h.logged u p hu).mono (subset_cons_self _ _)

theorem State.Sound.past_cons (h : s.Sound numThreads) (x : Happening) :
    ∀ k < s.phase, ∀ u < numThreads.toNat, Arrived (x :: s.log) u k :=
  fun k hk u hu => (h.past k hk u hu).mono (subset_cons_self _ _)

theorem left_cons {log : List Happening} {x : Happening}
    (h : ∀ t phase earlier, .left t phase :: earlier <:+ log →
      ∀ u < numThreads.toNat, Arrived earlier u phase)
    (hx : ∀ t phase, x = .left t phase → ∀ u < numThreads.toNat, Arrived log u phase) :
    ∀ t phase earlier, .left t phase :: earlier <:+ x :: log →
      ∀ u < numThreads.toNat, Arrived earlier u phase := by
  intro t phase earlier hsuffix
  rcases suffix_cons_iff.mp hsuffix with heq | hsuffix
  · cases heq
    exact hx t phase rfl
  · exact h t phase earlier hsuffix

section

variable (h : s.Sound numThreads)

include h

section

variable (ht : s.participants[t]? = some .outside)
include ht

theorem State.Sound.last_iff : s.mCount - 1 = 0 ↔ s.mCount.toNat = 1 := by
  have hpos := h.count_pos ht rfl
  rw [eq_zero_iff, toNat_pred hpos]
  omega

/-- With the arrival of the last participant everyone has arrived in the phase and in all
before. -/
theorem State.Sound.past_last {x : Happening} (hlast : s.mCount.toNat = 1)
    (hx : Arrived (x :: s.log) t s.phase) :
    ∀ k ≤ s.phase, ∀ u < numThreads.toNat, Arrived (x :: s.log) u k := by
  intro k hk u hu
  rcases Nat.lt_or_eq_of_le hk with hk | rfl
  · exact h.past_cons x k hk u hu
  · by_cases hut : u = t
    · subst hut
      exact hx
    · exact (h.all_arrived ht hlast hu hut).mono (subset_cons_self _ _)

/-- A participant arrives and is not the last: the others are as they were. -/
theorem State.Sound.count_set (hlast : ¬ s.mCount - 1 = 0) {p : Participant}
    (hp : p.awaited s.phase = false) :
    (s.mCount - 1).toNat = (s.participants.set t p).countP (awaited s.phase) ∧
      0 < (s.participants.set t p).countP (awaited s.phase) := by
  have hset := countP_set_add (awaited s.phase) p ht
  rw [hp, ← h.count] at hset
  have hset : (s.participants.set t p).countP (awaited s.phase) + 1 =
      s.mCount.toNat := hset
  rw [h.last_iff ht] at hlast
  rw [toNat_pred (h.count_pos ht rfl)]
  omega

theorem State.Sound.arriveAndWait : (s.arriveAndWait t).Sound numThreads := by
  unfold State.arriveAndWait
  dsimp only
  split
  · -- the last one: everyone has arrived, and this participant leaves at once
    rename_i hzero
    have hlast := (h.last_iff ht).mp hzero
    have hpast := h.past_last ht hlast (.inl mem_cons_self)
    refine release_sound (s := { s with
      mCount := s.mCount - 1, log := .left t s.phase :: .arrived t s.phase :: s.log })
      h.length h.expected h.counter ?_ ?_ ?_
    · intro u p hu
      refine ⟨(h.logged_cons _ hu).mono (subset_cons_self _ _), ?_⟩
      by_cases hut : u = t
      · subst hut
        exact .inl (Option.some.inj (hu.symm.trans ht))
      · exact .inr (h.others ht rfl hlast hut hu)
    · exact fun k hk u hu => (hpast k hk u hu).mono (subset_cons_self _ _)
    · refine left_cons (left_cons h.left nofun) ?_
      rintro _ _ ⟨⟩
      exact hpast s.phase (Nat.le_refl _)
  next hzero =>
    have hpresent := countP_set_add present (.waiting s.mPhase s.phase) ht
    obtain ⟨hcount, hpos⟩ := h.count_set (p := .waiting s.mPhase s.phase) ht hzero
      (by simp [awaited])
    refine ⟨?_, ?_, hcount, fun _ => hpos, h.counter, ?_, h.past_cons _,
      left_cons h.left nofun⟩
    · rw [length_set]
      exact h.length
    · rw [h.expected]
      exact (Nat.add_right_cancel hpresent).symm
    · intro u p hu
      obtain ⟨rfl, rfl⟩ | ⟨-, hu⟩ := getElem?_set_cases hu
      · exact ⟨h.counter, .inl rfl, mem_cons_self⟩
      · exact h.logged_cons _ hu

theorem State.Sound.arriveAndDrop : (s.arriveAndDrop t).Sound numThreads := by
  have hlength : (s.participants.set t .dropped).length = numThreads.toNat := by
    rw [length_set]
    exact h.length
  have hexpected : (s.mNumThreads - 1).toNat =
      (s.participants.set t .dropped).countP present := by
    have hpresent : (s.participants.set t .dropped).countP present + 1 =
        s.mNumThreads.toNat :=
      (countP_set_add present .dropped ht).trans h.expected.symm
    rw [toNat_pred (by omega)]
    omega
  have hdropped : .dropped t s.phase ∈ .dropped t s.phase :: s.log := mem_cons_self
  unfold State.arriveAndDrop
  dsimp only
  split
  next hzero =>
    have hlast := (h.last_iff ht).mp hzero
    refine release_sound hlength hexpected h.counter ?_
      (h.past_last ht hlast (.inr ⟨s.phase, Nat.le_refl _, hdropped⟩)) (left_cons h.left nofun)
    intro u p hu
    obtain ⟨rfl, rfl⟩ | ⟨hut, hu⟩ := getElem?_set_cases hu
    · exact ⟨⟨s.phase, Nat.le_refl _, hdropped⟩, .inr rfl⟩
    · exact ⟨h.logged_cons _ hu, .inr (h.others ht rfl hlast hut hu)⟩
  next hzero =>
    obtain ⟨hcount, hpos⟩ := h.count_set (p := .dropped) ht hzero rfl
    refine ⟨hlength, hexpected, hcount, fun _ => hpos, h.counter, ?_, h.past_cons _,
      left_cons h.left nofun⟩
    intro u p hu
    obtain ⟨rfl, rfl⟩ | ⟨-, hu⟩ := getElem?_set_cases hu
    · exact ⟨s.phase, Nat.le_refl _, hdropped⟩
    · exact h.logged_cons _ hu

end

/-- A participant that finds the phase advanced was released from the phase before. -/
theorem State.Sound.wake {currentPhase : UInt64} {k : Nat}
    (ht : s.participants[t]? = some (.waiting currentPhase k)) :
    (s.wake t currentPhase k).Sound numThreads := by
  unfold State.wake
  split
  next hne =>
    obtain ⟨rfl, hk, -⟩ := h.logged t _ ht
    have hk' : k ≠ s.phase := fun heq => hne (heq ▸ h.counter)
    have hpast : k < s.phase := by omega
    have hpresent := countP_set_add present .outside ht
    have hawaited := countP_set_add (awaited s.phase) .outside ht
    have hsame : (waiting (.ofNat k) k).awaited s.phase = true :=
      decide_eq_true hk'
    have hpresent' := Nat.add_right_cancel (hpresent.trans rfl)
    have hawaited' := Nat.add_right_cancel (hawaited.trans (by rw [hsame]; rfl))
    refine ⟨?_, ?_, ?_, ?_, h.counter, ?_, h.past_cons _, left_cons h.left ?_⟩
    · rw [length_set]
      exact h.length
    · exact h.expected.trans hpresent'.symm
    · exact h.count.trans hawaited'.symm
    · rw [hpresent', hawaited']
      exact h.positive
    · intro u p hu
      obtain ⟨rfl, rfl⟩ | ⟨-, hu⟩ := getElem?_set_cases hu
      · trivial
      · exact h.logged_cons _ hu
    · rintro _ _ ⟨⟩
      exact h.past k hpast
  · exact h

end

theorem init_sound : (State.init numThreads).Sound numThreads where
  length := length_replicate
  expected := by simp [State.init, countP_replicate, present]
  count := by simp [State.init, countP_replicate, awaited]
  positive := by simp [State.init, countP_replicate, awaited, present]
  counter := rfl
  logged := by
    intro t p ht
    rw [eq_of_mem_replicate (mem_of_getElem? ht)]
    trivial
  past := nofun
  left := fun _ _ _ h => nomatch suffix_nil.mp h

theorem State.Sound.step {a : Action} (h : s.Sound numThreads) (hstep : s.step a = some s') :
    s'.Sound numThreads := by
  cases a with
  | arriveAndWait t =>
    obtain ⟨ht, heq⟩ := ite_none_right_eq_some.mp hstep
    cases heq
    exact h.arriveAndWait ht
  | wake t =>
    unfold State.step at hstep
    dsimp only at hstep
    split at hstep
    next ht =>
      cases hstep
      exact h.wake ht
    · cases hstep
  | arriveAndDrop t =>
    obtain ⟨ht, heq⟩ := ite_none_right_eq_some.mp hstep
    cases heq
    exact h.arriveAndDrop ht

end Runs

/-- **The barrier.** For every number of participants and every interleaving of their calls, with
any wake-ups, nobody leaves a phase before every participant there still is has arrived in it, and
between calls the remaining count is at least one, and at most the number of participants, while
there are any. -/
theorem barrier_safe (numThreads : UInt64) (as : List Action) :
    (machine numThreads).Always (State.Safe numThreads) (.init numThreads) as := by
  have hsound : (machine numThreads).Always (State.Sound numThreads) (.init numThreads) as :=
    Transition.Machine.always_of_step (fun _ _ _ h hstep => h.step hstep) init_sound as
  exact hsound.mono fun s hs => hs.safe

end CxxKit.Barrier
