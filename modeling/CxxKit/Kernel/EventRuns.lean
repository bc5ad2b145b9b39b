import CxxKit.Kernel.Bookkeeping

/-!
Events over whole runs.

`queues_ordered_iff`: the queues are ordered throughout a run exactly if every transfer
of `move_to_loop` brings only entries that belong behind those already queued.
`every_event_accounted_iff`: in every state of a run each event is in one queue, in
flight, or gone after exactly one deletion, exactly if every loop that goes has an empty
queue.  `~EventLoop` empties it, but the destructors of its children run after that.
-/

namespace CxxKit.Kernel

open Ledger State Transition

variable {s s' : State}

/-! ### Order -/

/-- Every queue is ordered, so its head has the highest priority in it. -/
def QueuesOrdered (s : State) : Prop :=
  ∀ l, EventQueue.Ordered (s.queue l) ∧
    ∀ entry queue, s.queue l = entry :: queue → ∀ x ∈ queue, x.mPriority ≤ entry.mPriority

/-- If the step moves the entries of `o` to another loop, they all belong behind the
entries already queued there. -/
def ArrivesInOrder (s : State) (a : ThreadId × Action) : Prop :=
  ∀ o l l', s.Carries a.2 o l l' →
    ∀ x ∈ s.queue l', ∀ y ∈ s.queue l, y.mReceiver = o → EventQueue.Before x y

theorem queuesOrdered_iff : QueuesOrdered s ↔ s.ledger.Ordered := by
  constructor
  · exact fun h l => (h l).1
  · intro h l
    refine ⟨h l, fun entry queue hqueue => ?_⟩
    have hl : EventQueue.Ordered (s.queue l) := h l
    rw [hqueue] at hl
    exact hl.head_max

theorem step_ordered_iff {a : ThreadId × Action} (hkept : s.Kept) (h : QueuesOrdered s)
    (hstep : s.step a = some s') : QueuesOrdered s' ↔ ArrivesInOrder s a := by
  rw [queuesOrdered_iff] at h ⊢
  cases step_accounts hstep with
  | moves hbooks hquiet =>
    constructor
    · intro _ o l l' hcarries
      exact absurd hcarries (hquiet o l l')
    · intro _
      exact h.moves hkept.2 (hbooks hkept.1).2
  | lose o hreleases _ hledger =>
    rw [hledger]
    refine iff_of_true (h.lose o) fun i l l' hcarries => ?_
    cases hcarries.1.symm.trans hreleases.1
  | transfer o l l' hcarries _ hledger =>
    rw [hledger, transfer_ordered_iff h]
    constructor
    · intro hbefore i k k' hcarries' x hx y hy hreceiver
      -- only one object is carried by a step
      obtain ⟨-, -, rest, hpending⟩ := hcarries
      obtain ⟨-, -, rest', hpending'⟩ := hcarries'
      rw [hpending] at hpending'
      cases hpending'
      exact hbefore x hx y hy (decide_eq_true hreceiver)
    · intro harrives x hx y hy hreceiver
      exact harrives o l l' hcarries x hx y hy (of_decide_eq_true hreceiver)

/-- **Order of the event queues.** They are ordered throughout a run exactly if every entry that a
`move_to_loop` carries to another queue belongs behind the entries there. Insertion and removal keep
the order; the move appends without a comparison. -/
theorem queues_ordered_iff (run : List (ThreadId × Action)) :
    machine.Always QueuesOrdered init run ↔ machine.Meets ArrivesInOrder init run := by
  apply Machine.always_iff_meets
  · exact fun s a s' hkept hstep => step_kept hkept hstep
  · exact fun s a s' hkept h hstep => step_ordered_iff hkept h hstep
  · exact kept_init
  · exact queuesOrdered_iff.mpr fun _ => List.Pairwise.nil

/-- Two loops with an object each; an event of priority 0 is posted to the second object,
one of priority 5 to the first, which is then moved to the second loop. -/
def overtakenRun : List (ThreadId × Action) :=
  [.newLoop none, .newLoop none, .newObject none, .newObject none,
    .moveToLoop 2 (some 0) 1, .relink, .migrate, .transfer,
    .moveToLoop 3 (some 1) 1, .relink, .migrate, .transfer,
    .postEvent 2 .other 5, .postEvent 3 .other 0,
    .moveToLoop 2 (some 1) 1, .relink, .migrate, .transfer].map fun a => (0, a)

/-- `move_to_loop` appends without looking at priorities. -/
theorem migration_breaks_order :
    ∃ s, machine.run init overtakenRun = some s ∧ ¬ QueuesOrdered s := by
  have hrun : (machine.run init overtakenRun).map
      (fun s => (s.queue 1).map EventEntry.mPriority) = some [0, 5] := by rfl
  obtain ⟨s, hs, hqueue⟩ := Option.map_eq_some_iff.mp hrun
  refine ⟨s, hs, fun h => ?_⟩
  obtain ⟨a, rest, hq, ha, hrest⟩ := List.map_eq_cons_iff.mp hqueue
  obtain ⟨b, tail, rfl, hb, -⟩ := List.map_eq_cons_iff.mp hrest
  have hle := (h 1).2 a _ hq b List.mem_cons_self
  rw [ha, hb] at hle
  exact absurd hle (by decide)

/-! ### Conservation -/

/-- What has become of an event: where it is, and everything that happened to it, in
order. -/
inductive Fate (s : State) (e : Nat) : Prop where
  /-- once in one queue -/
  | queued (l : Nat) :
      (ids (s.queue l)).count e = 1 → (∀ l', l' ≠ l → (ids (s.queue l')).count e = 0) →
      (ids s.ledger.inFlight).count e = 0 → past s.history e = [] → Fate s e
  /-- being sent by `process_events`, handed to its receiver or intercepted -/
  | inFlight :
      (∀ l, (ids (s.queue l)).count e = 0) → (ids s.ledger.inFlight).count e = 1 →
      past s.history e = [] ∨ past s.history e = [.handed e] → Fate s e
  /-- handed to its receiver once, then deleted once -/
  | delivered :
      (∀ l, (ids (s.queue l)).count e = 0) → (ids s.ledger.inFlight).count e = 0 →
      past s.history e = [.handed e, .deleted e] → Fate s e
  /-- deleted once without delivery -/
  | discarded :
      (∀ l, (ids (s.queue l)).count e = 0) → (ids s.ledger.inFlight).count e = 0 →
      past s.history e = [.deleted e] → Fate s e

/-- Events that have no fate are exactly the lost ones. -/
theorem fates_iff (h : s.ledger.Conserved) :
    (∀ e, e < s.nextEvent → Fate s e) ↔ s.ledger.Lossless := by
  obtain ⟨n, hempty, hstage⟩ := h
  have hbeyond : ∀ {l : Nat}, n ≤ l → ∀ e, (ids (s.queue l)).count e = 0 := by
    intro l hl e
    have hnil : s.queue l = [] := hempty l hl
    rw [hnil]
    rfl
  constructor
  · intro hfate e hlost
    have hmem : .lost e ∈ past s.history e := List.mem_filter.mpr ⟨hlost, decide_eq_true rfl⟩
    have hissued : e < s.nextEvent := (hstage e).lt_of_past (List.ne_nil_of_mem hmem)
    cases hfate e hissued with
    | queued _ _ _ _ hpast | delivered _ _ hpast | discarded _ _ hpast =>
      rw [hpast] at hmem
      simp at hmem
    | inFlight _ _ hpast =>
      rcases hpast with hpast | hpast <;> rw [hpast] at hmem <;> simp at hmem
  · intro hlossless e he
    have hnone : queued s.ledger.queue n e = 0 → ∀ l, (ids (s.queue l)).count e = 0 := by
      intro hzero l
      rcases Nat.lt_or_ge l n with hlt | hge
      · exact Tally.tally_eq_zero hzero l hlt
      · exact hbeyond hge e
    have hst := hstage e
    generalize hq : queued s.ledger.queue n e = q at hst
    generalize hf : (ids s.ledger.inFlight).count e = f at hst
    generalize hp : past s.ledger.history e = p at hst
    cases hst with
    | unissued hle => exact absurd he (Nat.not_lt.mpr hle)
    | waiting _ =>
      obtain ⟨l, -, hone, hothers⟩ := Tally.tally_eq_one hq
      refine .queued l hone (fun l' hne => ?_) hf hp
      rcases Nat.lt_or_ge l' n with hlt | hge
      · exact hothers l' hlt hne
      · exact hbeyond hge e
    | sent _ => exact .inFlight (hnone hq) hf (.inl hp)
    | handed _ => exact .inFlight (hnone hq) hf (.inr hp)
    | discarded _ => exact .discarded (hnone hq) hf hp
    | delivered _ => exact .delivered (hnone hq) hf hp
    | lost _ =>
      have hmem : .lost e ∈ past s.ledger.history e := hp ▸ List.mem_singleton_self _
      exact absurd (List.mem_of_mem_filter hmem) (hlossless e)

/-- A loop whose memory goes has an empty queue: whatever was enqueued on it after
`~EventLoop` had emptied the queue has been taken away again. -/
def LeavesNothing (s : State) (a : ThreadId × Action) : Prop :=
  ∀ o, s.Releases a.1 a.2 o → s.queue o = []

theorem step_lossless_iff {a : ThreadId × Action} (hkept : s.Kept) (h : s.ledger.Lossless)
    (hstep : s.step a = some s') : s'.ledger.Lossless ↔ LeavesNothing s a := by
  cases step_accounts hstep with
  | moves hbooks _ hquiet =>
    refine iff_of_true ((lossless_moves_iff (hbooks hkept.1).2).mpr h) fun o hreleases => ?_
    exact absurd hreleases (hquiet o)
  | transfer o l l' hcarries _ hledger =>
    rw [hledger]
    refine iff_of_true h fun i hreleases => ?_
    cases hcarries.1.symm.trans hreleases.1
  | lose o hreleases _ hledger =>
    rw [hledger, lossless_lose_iff h]
    constructor
    · rintro hempty i ⟨-, htop, -⟩
      cases hreleases.2.1.symm.trans htop
      exact hempty
    · exact fun hleaves => hleaves o hreleases

/-- **No event is lost, delivered twice or deleted twice**, throughout a run, exactly if no
loop goes with an event in its queue.  Nothing can be delivered or deleted twice in any run:
the only way for an event to go astray is the queue of a loop that is being destroyed. -/
theorem every_event_accounted_iff (run : List (ThreadId × Action)) :
    machine.Always (fun s => ∀ e, e < s.nextEvent → Fate s e) init run ↔
      machine.Meets LeavesNothing init run := by
  apply Machine.always_iff_meets
  · exact fun s a s' hkept hstep => step_kept hkept hstep
  · intro s a s' hkept h hstep
    rw [fates_iff (step_kept hkept hstep).2]
    exact step_lossless_iff hkept ((fates_iff hkept.2).mp h) hstep
  · exact kept_init
  · exact fun e he => absurd he (Nat.not_lt_zero e)

/-- A loop is moved to itself and given a child; while the loop is destroyed, the destructor of
the child posts an event to it. -/
def farewellRun : List (ThreadId × Action) :=
  [.newLoop none, .moveToLoop 0 (some 0) 1, .relink, .migrate, .transfer, .newObject (some 0),
    .destroy 0, .postEvent 0 .other 0, .cascade, .cascade, .cascade].map fun a => (0, a)

/-- The queue has been emptied and swept by then, so nobody deletes the event. -/
theorem farewell_event_lost : ∃ s, machine.run init farewellRun = some s ∧ s.history = [.lost 0] ∧
      s.alive 0 = false ∧ ¬ Fate s 0 := by
  refine ⟨_, rfl, rfl, rfl, ?_⟩
  rintro (⟨_, _, _, _, hpast⟩ | ⟨_, _, hpast | hpast⟩ | ⟨_, _, hpast⟩ | ⟨_, _, hpast⟩) <;>
    cases hpast

end CxxKit.Kernel
