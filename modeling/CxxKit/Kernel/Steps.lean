import CxxKit.Kernel.Runtime

/-!
What a step of the kernel can do.

`Effect s t a s'` lists, action by action, the states a step can lead to; `step_effect`
is the inversion of `State.step`, and everything proved about steps goes through it.
Sweeping, enqueueing and deleting are used in several places and have their own
specifications.
-/

namespace CxxKit.Kernel

open Function List Option State

/-- The receiver of the event that a call enqueues. -/
def Action.receiver : Action → Option Nat
  | .postEvent receiver _ _ => some receiver
  | .deleteLater o => some o
  | _ => none

namespace State

variable {s s' : State} {t : ThreadId} {f : Frame}

/-! ### Frames -/

theorem top_mem (h : s.top t = some f) : (t, f) ∈ s.frames := by
  obtain ⟨⟨t', f'⟩, hfind, rfl⟩ := map_eq_some_iff.mp h
  have ht : t' = t := by simpa using find?_some hfind
  exact ht ▸ mem_of_find?_eq_some hfind

theorem top_split (h : s.top t = some f) : ∃ before after, s.frames = before ++ (t, f) :: after ∧
      (s.pop t).frames = before ++ after := by
  obtain ⟨⟨t', f'⟩, hfind, rfl⟩ := map_eq_some_iff.mp h
  have ht : t' = t := by simpa using find?_some hfind
  subst ht
  obtain ⟨-, before, after, heq, hbefore⟩ := find?_eq_some_iff_append.mp hfind
  refine ⟨before, after, heq, ?_⟩
  change s.frames.eraseP fun f => f.1 = t' = before ++ after
  rw [heq, eraseP_append_right _ (by simpa using hbefore), eraseP_cons_of_pos (by simp)]

theorem mem_pop {x : ThreadId × Frame} (h : x ∈ (s.pop t).frames) : x ∈ s.frames :=
  mem_of_mem_eraseP h

section Views

variable {α : Type} {v : Frame → Option α}

/-! What some frames record, as `v` gives it, when a frame comes or goes. -/

theorem filterMap_push (h : v f = none) (t : ThreadId) :
    ((s.push t f).frames.filterMap fun f => v f.2) = s.frames.filterMap fun f => v f.2 := by
  simp only [push, filterMap_cons, h]

theorem filterMap_pop (htop : s.top t = some f) (h : v f = none) :
    ((s.pop t).frames.filterMap fun f => v f.2) = s.frames.filterMap fun f => v f.2 := by
  obtain ⟨before, after, hframes, hpop⟩ := top_split htop
  simp only [hpop, hframes, filterMap_append, filterMap_cons, h]

theorem filterMap_perm {x : α} (htop : s.top t = some f) (h : v f = some x) :
    (s.frames.filterMap fun f => v f.2).Perm
      (x :: (s.pop t).frames.filterMap fun f => v f.2) := by
  obtain ⟨before, after, hframes, hpop⟩ := top_split htop
  simp only [hpop, hframes, filterMap_append, filterMap_cons, h]
  exact perm_middle

end Views

/-! ### Queues -/

variable {l o : Nat} {parent : Option Nat} {entries : List EventEntry}

theorem queue_of_none (h : s.loops l = none) : s.queue l = [] := by
  rw [queue, h]

theorem queue_congr (h : s'.loops = s.loops) : s'.queue = s.queue := by
  funext l
  rw [queue, queue, h]

theorem queue_modifyLoop {g : EventLoopPrivate → EventLoopPrivate}
    (h : ∀ d, (g d).mEventQueue = d.mEventQueue) : (s.modifyLoop l g).queue = s.queue := by
  funext i
  simp only [queue, modifyLoop]
  rcases eq_or_ne i l with rfl | hne
  · rw [update_self]
    cases s.loops i with
    | none => rfl
    | some d => exact h d
  · rw [update_of_ne hne]

theorem queue_setQueue (h : (s.loops l).isSome) (q : List EventEntry) :
    (s.setQueue l q).queue = update s.queue l q := by
  obtain ⟨d, hd⟩ := isSome_iff_exists.mp h
  funext i
  rcases eq_or_ne i l with rfl | hne
  · simp [queue, setQueue, modifyLoop, hd]
  · simp [queue, setQueue, modifyLoop, update_of_ne hne]

theorem setQueue_of_none (h : s.loops l = none) (q : List EventEntry) : s.setQueue l q = s := by
  have : update s.loops l none = s.loops := by
    rw [← h, update_eq_self]
  simp [setQueue, modifyLoop, h, this]

/-! ### Sweeping -/

/-- `take_events_for` is a split by receiver. -/
theorem takeEventsFor_eq (receiver : Nat) (q : List EventEntry) :
    EventQueue.takeEventsFor receiver q =
      (q.filter fun entry => decide (entry.mReceiver = receiver),
        q.filter fun entry => !decide (entry.mReceiver = receiver)) := by
  simp only [EventQueue.takeEventsFor, decide_not]

/-- A purge of the queues in `loops`: entries of the receiver are gone from them, and
nothing else changes but the history. -/
structure Purged (s s' : State) (loops : List (Option Nat)) (receiver : Nat) : Prop where
  objects : s'.objects = s.objects
  current : s'.current = s.current
  frames : s'.frames = s.frames
  pending : s'.pending = s.pending
  nextObject : s'.nextObject = s.nextObject
  alive : ∀ l, s'.loops l = none ↔ s.loops l = none
  queue : ∀ l, s'.queue l =
    if some l ∈ loops then (s.queue l).filter fun entry => !decide (entry.mReceiver = receiver)
    else s.queue l

theorem purgePending_purged {loop : Option Nat} {receiver : Nat}
    (h : s.purgePending loop receiver = some s') : Purged s s' [loop] receiver := by
  unfold purgePending at h
  cases loop with
  | none =>
    cases h
    exact ⟨rfl, rfl, rfl, rfl, rfl, fun _ => .rfl, fun _ => by simp⟩
  | some l =>
    dsimp only at h
    split at h
    next hloop =>
      cases h
      refine ⟨rfl, rfl, rfl, rfl, rfl, fun i => ?_, fun i => ?_⟩
      · simp only [removeEntries, deleteEvents, setQueue, modifyLoop]
        rcases eq_or_ne i l with rfl | hne
        · simp
        · rw [update_of_ne hne]
      · have hq : (s.removeEntries l receiver).queue = update s.queue l
            ((s.queue l).filter fun entry => !decide (entry.mReceiver = receiver)) := by
          rw [removeEntries, takeEventsFor_eq]
          exact queue_setQueue hloop _
        rw [hq]
        rcases eq_or_ne i l with rfl | hne
        · simp
        · rw [update_of_ne hne, if_neg (by simpa using hne)]
    · cases h

theorem sweep_purged (h : s.sweep t o = some s') :
    ∃ d, s.objects o = some d ∧ Purged s s' [d.mThread, s.current t] o := by
  unfold sweep at h
  split at h
  · cases h
  next d hd =>
    obtain ⟨u, hfirst, hsecond⟩ := bind_eq_some_iff.mp h
    have h₁ := purgePending_purged hfirst
    have h₂ := purgePending_purged hsecond
    refine ⟨d, hd, h₂.objects.trans h₁.objects, h₂.current.trans h₁.current,
      h₂.frames.trans h₁.frames, h₂.pending.trans h₁.pending, h₂.nextObject.trans h₁.nextObject,
      fun l => (h₂.alive l).trans (h₁.alive l), fun l => ?_⟩
    rw [h₂.queue, h₁.queue]
    -- a second purge of the same queue finds nothing
    have hboth : some l ∈ [d.mThread, s.current t] ↔
        some l ∈ [d.mThread] ∨ some l ∈ [s.current t] := by simp
    by_cases hthread : some l ∈ [d.mThread] <;> by_cases hcurrent : some l ∈ [s.current t]
    · rw [if_pos hthread, if_pos (hboth.mpr (.inl hthread))]
      simp
    · rw [if_pos hthread, if_neg hcurrent, if_pos (hboth.mpr (.inl hthread))]
    · rw [if_neg hthread, if_pos hcurrent, if_pos (hboth.mpr (.inr hcurrent))]
    · rw [if_neg hthread, if_neg hcurrent, if_neg fun h => (hboth.mp h).elim hthread hcurrent]

/-! ### Deleting -/

theorem queue_drain (s : State) (o : Nat) :
    ((s.deleteEvents (s.queue o)).setQueue o []).queue = update s.queue o [] := by
  by_cases hloop : (s.loops o).isSome
  · exact queue_setQueue hloop _
  · have hnone : s.loops o = none := by simpa using hloop
    rw [setQueue_of_none (s := s.deleteEvents _) hnone, ← queue_of_none hnone]
    exact (update_eq_self ..).symm

/-- `delete o` up to the cascade: the object's own queue is empty, its entries are swept
from two queues, and its destructor is in its loop. -/
structure Deletes (s s' : State) (t : ThreadId) (o : Nat) (d : ObjectPrivate) : Prop where
  found : s.objects o = some d
  once : o ∉ s.destroyed
  objects : s'.objects = s.objects
  current : s'.current = s.current
  frames : s'.frames = (t, .destroying o) :: s.frames
  pending : s'.pending = s.pending
  nextObject : s'.nextObject = s.nextObject
  alive : ∀ l, s'.loops l = none ↔ s.loops l = none
  own : s'.queue o = []
  queue : ∀ l, l ≠ o → s'.queue l =
    if some l ∈ [d.mThread, s.current t] then
      (s.queue l).filter fun entry => !decide (entry.mReceiver = o)
    else s.queue l

theorem delete_deletes (h : s.delete t o = some s') : ∃ d, Deletes s s' t o d := by
  unfold delete at h
  split at h
  · cases h
  next honce =>
    obtain ⟨u, hsweep, rfl⟩ := map_eq_some_iff.mp h
    obtain ⟨d, hd, hp⟩ := sweep_purged hsweep
    refine ⟨d, hd, honce, hp.objects, hp.current, congrArg (_ :: ·) hp.frames, hp.pending,
      hp.nextObject, fun l => (hp.alive l).trans ?_, ?_, fun l hne => ?_⟩
    · change update s.loops o _ l = none ↔ s.loops l = none
      rcases eq_or_ne l o with rfl | hne
      · rw [update_self]
        exact map_eq_none_iff
      · rw [update_of_ne hne]
    · change u.queue o = []
      rw [hp.queue, queue_drain, update_self]
      split <;> rfl
    · change u.queue l = _
      rw [hp.queue, queue_drain, update_of_ne hne]
      rfl

/-! ### Transfers -/

theorem takeFrom_some {u : State} (h : s.takeFrom o (some l) = some (entries, u)) :
    (s.loops l).isSome ∧
      entries = ((s.queue l).filter fun entry => decide (entry.mReceiver = o)) ∧
      u = s.setQueue l ((s.queue l).filter fun entry => !decide (entry.mReceiver = o)) := by
  simp only [takeFrom] at h
  split at h
  next hloop =>
    rw [takeEventsFor_eq] at h
    cases h
    exact ⟨hloop, rfl, rfl⟩
  · cases h

theorem giveTo_some (h : s.giveTo entries (some l) = some s') :
    (s.loops l).isSome ∧ s' = s.setQueue l (s.queue l ++ entries) := by
  simp only [giveTo] at h
  split at h
  next hloop =>
    cases h
    exact ⟨hloop, rfl⟩
  · cases h

/-! ### Effects -/

/-- What each action can lead to. -/
inductive Effect (s : State) (t : ThreadId) : Action → State → Prop where
  /-- calls that return at once -/
  | stay {a : Action} : a ≠ .transfer → a ≠ .cascade → Effect s t a s
  | newObject {parent : Option Nat} :
      parent.all s.alive = true →
      Effect s t (.newObject parent) ((s.create t).adopt s.nextObject parent)
  | newLoop : Effect s t (.newLoop none) ((s.create t).installLoop t s.nextObject)
  | newChildLoop {p : Nat} :
      s.alive p = true →
      Effect s t (.newLoop (some p))
        (((s.create t).adopt s.nextObject (some p)).push t (.construct s.nextObject))
  | constructed {o : Nat} :
      s.top t = some (.construct o) → s.alive o = true →
      Effect s t .constructed ((s.pop t).installLoop t o)
  | firstParent {o rounds : Nat} {parent : Option Nat} {d : ObjectPrivate} :
      s.objects o = some d → d.mParent = none → s.climb o rounds parent = some false →
      Effect s t (.setParent o parent rounds) (s.adopt o parent)
  | leaveParent {o rounds old : Nat} {parent : Option Nat} {d : ObjectPrivate} :
      s.objects o = some d → d.mParent = some old → s.climb o rounds parent = some false →
      s.alive old = true →
      Effect s t (.setParent o parent rounds) ((s.detachChild old o).push t (.setParent o parent))
  | childRemoved {o : Nat} {parent : Option Nat} :
      s.top t = some (.setParent o parent) → s.alive o = true → parent.all s.alive = true →
      Effect s t .childRemoved
        (((s.pop t).modifyObject o fun d => { d with mParent := none }).adopt o parent)
  | destroy {o : Nat} {s' : State} :
      s.delete t o = some s' → Effect s t (.destroy o) s'
  | deleteThis {entry : EventEntry} {s' : State} :
      s.top t = some (.dispatch entry) → entry.mEvent.type = .kDeferredDelete →
      s.delete t entry.mReceiver = some s' → Effect s t .objectEvent s'
  | cascadeChild {o c : Nat} {cs : List Nat} {d : ObjectPrivate} {s' : State} :
      s.top t = some (.destroying o) → s.objects o = some d → d.mChildren = c :: cs →
      s.delete t c = some s' → Effect s t .cascade s'
  | cascadeEnd {o : Nat} {d : ObjectPrivate} :
      s.top t = some (.destroying o) → s.objects o = some d → d.mChildren = [] →
      d.mParent.all s.alive = true →
      Effect s t .cascade ((s.pop t).release o d.mParent)
  /-- `post_event` and `delete_later`, the latter on the current loop if the receiver has
  none -/
  | enqueue {a : Action} {l receiver : Nat} {type : EventType} {priority : Int}
      {d : ObjectPrivate} {s' : State} :
      a.receiver = some receiver → s.objects receiver = some d →
      (d.mThread = some l ∨ d.mThread = none) →
      s.enqueueEvent l receiver type priority = some s' → Effect s t a s'
  | removePendingEvents {receiver : Nat} {s' : State} :
      s.sweep t receiver = some s' → Effect s t (.removePendingEvents receiver) s'
  | moveToLoop {o rounds : Nat} {target : Option Nat} {d : ObjectPrivate}
      {moved : List (Nat × Option Nat)} :
      s.objects o = some d → d.mThread ≠ target →
      s.collect rounds [o] [(o, d.mThread)] = some moved →
      Effect s t (.moveToLoop o target rounds)
        (s.push t (.relink target moved (moved.map Prod.fst)))
  | relink {target : Option Nat} {moved : List (Nat × Option Nat)} {o : Nat} {rest : List Nat} :
      s.top t = some (.relink target moved (o :: rest)) → s.alive o = true →
      Effect s t .relink (((s.pop t).modifyObject o fun d => { d with mThread := target }).push t
        (.relink target moved rest))
  | migrate {target : Option Nat} {moved : List (Nat × Option Nat)} :
      s.top t = some (.relink target moved []) →
      Effect s t .migrate { s.pop t with pending := .migrating target moved }
  /-- the entries of a moved object are on the target's queue already -/
  | transferNone {target : Option Nat} {o : Nat} {rest : List (Nat × Option Nat)} :
      s.pending = .migrating target ((o, target) :: rest) →
      Effect s t .transfer { s with pending := migratingRest target rest }
  | transfer {target old : Option Nat} {o : Nat} {rest : List (Nat × Option Nat)}
      {entries : List EventEntry} {u s' : State} :
      s.pending = .migrating target ((o, old) :: rest) → old ≠ target →
      { s with pending := migratingRest target rest }.takeFrom o old = some (entries, u) →
      u.giveTo entries target = some s' → Effect s t .transfer s'
  | processEvents {l : Nat} :
      (s.loops l).isSome = true → Effect s t (.processEvents l) (s.push t (.processEvents l))
  | dispatch {l : Nat} {entry : EventEntry} {queue : List EventEntry} {intercepted : Bool} :
      s.top t = some (.processEvents l) → s.queue l = entry :: queue →
      s.alive entry.mReceiver = true →
      Effect s t (.dispatch intercepted) { ((s.setQueue l queue).push t (.dispatch entry)) with
        history := s.history ++ if intercepted then [] else [.handed entry.mEvent.id] }
  | finishDispatch {entry : EventEntry} :
      s.top t = some (.dispatch entry) →
      Effect s t .finishDispatch ((s.pop t).deleteEvents [entry])
  | endProcess {l : Nat} :
      s.top t = some (.processEvents l) → Effect s t .endProcess (s.pop t)
  | exec {l : Nat} :
      Effect s t (.exec l)
        { (s.modifyLoop l fun d => { d with mInExec := true, mExit := false }).push t
            (.exec l (s.current t)) with current := update s.current t (some l) }
  | endExec {l : Nat} {previous : Option Nat} :
      s.top t = some (.exec l previous) →
      Effect s t .endExec { (s.modifyLoop l fun d => { d with mInExec := false }).pop t with
        current := update s.current t previous }
  | exit {a : Action} {l : Nat} :
      a ≠ .transfer → a ≠ .cascade →
      Effect s t a (s.modifyLoop l fun d => { d with mExit := true, mHasExitCode := true })

/-! ### Inversion of the calls -/

theorem construct_effect (h : s.construct t parent = some s') :
    Effect s t (.newObject parent) s' := by
  simp only [construct] at h
  split at h
  · cases h
    exact .newObject ‹_›
  · cases h

theorem newLoop_effect (h : s.newLoop t parent = some s') : Effect s t (.newLoop parent) s' := by
  cases parent with
  | none =>
    cases h
    exact .newLoop
  | some p =>
    simp only [newLoop, construct] at h
    split at h
    · cases h
      exact .newChildLoop (by simpa using ‹_›)
    · cases h

theorem constructed_effect (h : s.constructed t = some s') : Effect s t .constructed s' := by
  simp only [constructed] at h
  split at h
  next htop =>
    split at h
    · cases h
      exact .constructed htop ‹_›
    · cases h
  · cases h

variable {rounds : Nat}

theorem setParent_effect (h : s.setParent t o parent rounds = some s') :
    Effect s t (.setParent o parent rounds) s' := by
  simp only [setParent] at h
  split at h
  · cases h
  next hfound =>
    split at h
    · cases h
      exact .stay nofun nofun
    · split at h
      · cases h
      · cases h
      next hclimb =>
        split at h
        next hparent =>
          cases h
          exact .firstParent hfound hparent hclimb
        next old hparent =>
          split at h
          · cases h
            exact .leaveParent hfound hparent hclimb ‹_›
          · cases h

theorem childRemoved_effect (h : s.childRemoved t = some s') : Effect s t .childRemoved s' := by
  simp only [childRemoved] at h
  split at h
  next htop =>
    split at h
    next halive =>
      cases h
      exact .childRemoved htop halive.1 halive.2
    · cases h
  · cases h

theorem postEvent_effect {receiver : Nat} {type : EventType} {priority : Int}
    (h : s.postEvent receiver type priority = some s') :
    Effect s t (.postEvent receiver type priority) s' := by
  simp only [postEvent] at h
  split at h
  · cases h
  next hfound =>
    split at h
    · cases h
    · split at h
      · cases h
      next hthread =>
        exact .enqueue rfl hfound (.inl hthread) h

theorem deleteLater_effect (h : s.deleteLater t o = some s') : Effect s t (.deleteLater o) s' := by
  simp only [deleteLater] at h
  split at h
  · cases h
  next d hfound =>
    split at h
    · cases h
    next l hloop =>
      refine .enqueue rfl hfound ?_ h
      cases hthread : d.mThread with
      | none => exact .inr rfl
      | some l' =>
        rw [hthread] at hloop
        cases hloop
        exact .inl rfl

theorem moveToLoop_effect {target : Option Nat} (h : s.moveToLoop t o target rounds = some s') :
    Effect s t (.moveToLoop o target rounds) s' := by
  simp only [moveToLoop] at h
  split at h
  · cases h
  next hfound =>
    split at h
    · cases h
      exact .stay nofun nofun
    next hother =>
      split at h
      · obtain ⟨moved, hcollect, rfl⟩ := map_eq_some_iff.mp h
        exact .moveToLoop hfound hother hcollect
      · cases h

theorem relink_effect (h : s.relink t = some s') : Effect s t .relink s' := by
  simp only [relink] at h
  split at h
  next htop =>
    split at h
    · cases h
      exact .relink htop ‹_›
    · cases h
  · cases h

theorem migrate_effect (h : s.migrate t = some s') : Effect s t .migrate s' := by
  simp only [migrate] at h
  split at h
  next htop =>
    cases h
    exact .migrate htop
  · cases h

theorem beginProcess_effect (h : s.beginProcess t l = some s') :
    Effect s t (.processEvents l) s' := by
  simp only [beginProcess] at h
  split at h
  · cases h
    exact .processEvents ‹_›
  · cases h

theorem dispatch_effect {intercepted : Bool} (h : s.dispatch t intercepted = some s') :
    Effect s t (.dispatch intercepted) s' := by
  simp only [dispatch] at h
  split at h
  next htop =>
    split at h
    · cases h
    next hqueue =>
      split at h
      · cases h
        exact .dispatch htop hqueue ‹_›
      · cases h
  · cases h

theorem objectEvent_effect (h : s.objectEvent t = some s') : Effect s t .objectEvent s' := by
  simp only [objectEvent, exit] at h
  split at h
  next htop =>
    split at h
    · exact .deleteThis htop ‹_› h
    · split at h
      · cases h
        exact .exit nofun nofun
      · cases h
        exact .stay nofun nofun
    · cases h
      exact .stay nofun nofun
  · cases h

theorem finishDispatch_effect (h : s.finishDispatch t = some s') :
    Effect s t .finishDispatch s' := by
  simp only [finishDispatch] at h
  split at h
  next htop =>
    cases h
    exact .finishDispatch htop
  · cases h

theorem endProcess_effect (h : s.endProcess t = some s') : Effect s t .endProcess s' := by
  simp only [endProcess] at h
  split at h
  next htop =>
    split at h
    · cases h
      exact .endProcess htop
    · cases h
  · cases h

theorem exec_effect (h : s.exec t l = some s') : Effect s t (.exec l) s' := by
  simp only [exec] at h
  split at h
  · cases h
  · split at h
    · cases h
      exact .stay nofun nofun
    · split at h
      · cases h
        exact .stay nofun nofun
      · cases h
        exact .exec

theorem endExec_effect (h : s.endExec t = some s') : Effect s t .endExec s' := by
  simp only [endExec] at h
  split at h
  next htop =>
    split at h
    · cases h
    · split at h
      · cases h
        exact .endExec htop
      · cases h
  · cases h

theorem cascade_effect (h : s.cascade t = some s') : Effect s t .cascade s' := by
  unfold cascade at h
  split at h
  next htop =>
    split at h
    · cases h
    next hfound =>
      split at h
      next hchildren =>
        exact .cascadeChild htop hfound hchildren h
      next hchildren =>
        split at h
        · cases h
          exact .cascadeEnd htop hfound hchildren ‹_›
        · cases h
  · cases h

theorem exit_effect (h : s.exit l = some s') : Effect s t (.exit l) s' := by
  simp only [exit] at h
  split at h
  · cases h
    exact .exit nofun nofun
  · cases h

theorem call_effect {a : Action} (h : s.call t a = some s') : Effect s t a s' := by
  cases a with
  | newObject parent => exact construct_effect h
  | newLoop parent => exact newLoop_effect h
  | constructed => exact constructed_effect h
  | setParent o parent rounds => exact setParent_effect h
  | childRemoved => exact childRemoved_effect h
  | destroy o => exact .destroy h
  | postEvent receiver type priority => exact postEvent_effect h
  | deleteLater o => exact deleteLater_effect h
  | removePendingEvents receiver => exact .removePendingEvents h
  | moveToLoop o target rounds => exact moveToLoop_effect h
  | relink => exact relink_effect h
  | migrate => exact migrate_effect h
  | processEvents l => exact beginProcess_effect h
  | dispatch intercepted => exact dispatch_effect h
  | objectEvent => exact objectEvent_effect h
  | finishDispatch => exact finishDispatch_effect h
  | endProcess => exact endProcess_effect h
  | exec l => exact exec_effect h
  | endExec => exact endExec_effect h
  | exit l => exact exit_effect h
  | cascade => exact cascade_effect h
  | transfer => cases h

theorem transfer_effect (h : s.transfer = some s') : Effect s t .transfer s' := by
  unfold transfer at h
  split at h
  next target o old rest hpending =>
    split at h
    next heq =>
      cases h
      exact .transferNone (heq ▸ hpending)
    next hne =>
      obtain ⟨⟨entries, u⟩, htake, hgive⟩ := bind_eq_some_iff.mp h
      exact .transfer hpending hne htake hgive
  · cases h

/-- **Inversion of a step.** Calls are made while nothing is pending. -/
theorem step_effect {a : Action} (h : s.step (t, a) = some s') :
    Effect s t a s' ∧ (a = .transfer ∨ s.pending = .nothing) := by
  unfold step at h
  split at h
  next heq =>
    cases heq
    exact ⟨transfer_effect h, .inl rfl⟩
  next heq =>
    cases heq
    split at h
    next hidle =>
      exact ⟨call_effect h, .inr hidle⟩
    · cases h

end State

end CxxKit.Kernel
