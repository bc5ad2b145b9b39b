import CxxKit.Kernel.Ledger
import CxxKit.Kernel.Steps

/-!
Every step of the kernel is a sequence of ledger moves, one transfer, or the end of a
loop.

`Books s s'` relates two states when a tidy state stays tidy and the events only move
the way the ledger allows.  It is transitive, so each effect is followed through its
parts.  Tidiness is what keeps a constructor from throwing a queue away: it never
replaces the private part of a loop.
-/

namespace CxxKit.Kernel

open Function Ledger List Move Option State

def Frame.inFlight : Frame → Option EventEntry
  | .dispatch entry => some entry
  | _ => none

def Frame.constructing : Frame → Option Nat
  | .construct o => some o
  | _ => none

namespace State

variable {s s' : State} {t : ThreadId} {f : Frame}

/-! ### Books -/

/-- The events of a state. -/
def ledger (s : State) : Ledger where
  queue := s.queue
  inFlight := s.frames.filterMap fun f => f.2.inFlight
  history := s.history
  issued := s.nextEvent

theorem ledger_eq {L : Ledger} (hqueue : s.queue = L.queue)
    (hflight : (s.frames.filterMap fun f => f.2.inFlight) = L.inFlight)
    (hhistory : s.history = L.history) (hevents : s.nextEvent = L.issued) : s.ledger = L := by
  cases L
  rw [Ledger.mk.injEq]
  exact ⟨hqueue, hflight, hhistory, hevents⟩

theorem ledger_congr (hloops : s'.loops = s.loops)
    (hflight : s'.ledger.inFlight = s.ledger.inFlight) (hhistory : s'.history = s.history)
    (hevents : s'.nextEvent = s.nextEvent) : s'.ledger = s.ledger :=
  ledger_eq (queue_congr hloops) hflight hhistory hevents

structure Tidy (s : State) : Prop where
  fresh : ∀ o, s.nextObject ≤ o → s.loops o = none
  building : ∀ t o, (t, Frame.construct o) ∈ s.frames → o < s.nextObject ∧ s.loops o = none
  distinct : (s.frames.filterMap fun f => f.2.constructing).Nodup

/-- No loop comes to be where there was none, and no frame comes or goes. -/
theorem Tidy.of_loops (h : s.Tidy) (hnone : ∀ o, s.loops o = none → s'.loops o = none)
    (hframes : s'.frames = s.frames) (hobjects : s'.nextObject = s.nextObject) : s'.Tidy := by
  refine ⟨fun o ho => hnone o (h.fresh o (hobjects ▸ ho)), ?_, ?_⟩
  · rw [hframes, hobjects]
    intro t o hmem
    exact ⟨(h.building t o hmem).1, hnone o (h.building t o hmem).2⟩
  · rw [hframes]
    exact h.distinct

def Books (s s' : State) : Prop :=
  s.Tidy → s'.Tidy ∧ Relation.ReflTransGen Move s.ledger s'.ledger

theorem Books.of_ledger (htidy : s.Tidy → s'.Tidy) (hledger : s'.ledger = s.ledger) :
    Books s s' := by
  intro h
  rw [hledger]
  exact ⟨htidy h, .refl⟩

theorem Books.refl (s : State) : Books s s := .of_ledger id rfl

theorem Books.trans {s'' : State} (h : Books s s') (h' : Books s' s'') : Books s s'' := by
  intro htidy
  obtain ⟨htidy', hmoves⟩ := h htidy
  obtain ⟨htidy'', hmoves'⟩ := h' htidy'
  exact ⟨htidy'', hmoves.trans hmoves'⟩

/-- A change that events and loops do not notice. -/
theorem Books.of_same (hloops : s'.loops = s.loops) (hframes : s'.frames = s.frames)
    (hhistory : s'.history = s.history) (hevents : s'.nextEvent = s.nextEvent)
    (hobjects : s'.nextObject = s.nextObject) : Books s s' := by
  refine .of_ledger (fun h => h.of_loops (fun _ ho => ?_) hframes hobjects) ?_
  · rwa [hloops]
  · exact ledger_congr hloops (by rw [ledger, ledger, hframes]) hhistory hevents

theorem Books.modifyObject (s : State) (o : Nat) (g : ObjectPrivate → ObjectPrivate) :
    Books s (s.modifyObject o g) :=
  .of_same rfl rfl rfl rfl rfl

theorem Books.push (hflight : f.inFlight = none) (hbuild : f.constructing = none) :
    Books s (s.push t f) := by
  refine .of_ledger (fun h => ⟨h.fresh, ?_, ?_⟩)
    (ledger_congr rfl (filterMap_push hflight t) rfl rfl)
  · intro t' o hmem
    rcases mem_cons.mp hmem with heq | hmem
    · cases heq
      cases hbuild
    · exact h.building t' o hmem
  · simp only [State.push, filterMap_cons, hbuild]
    exact h.distinct

theorem Tidy.pop (h : s.Tidy) (t : ThreadId) : (s.pop t).Tidy where
  fresh := h.fresh
  building t' o hmem := h.building t' o (mem_pop hmem)
  distinct := h.distinct.sublist (eraseP_sublist.filterMap _)

theorem Books.pop (htop : s.top t = some f) (hflight : f.inFlight = none) : Books s (s.pop t) :=
  .of_ledger (·.pop t) (ledger_congr rfl (filterMap_pop htop hflight) rfl rfl)

/-! ### Queues -/

variable {l o receiver l' : Nat} {target : Option Nat} {rest : List (Nat × Option Nat)}
  {entries : List EventEntry} {u : State} {a : Action} {g : EventLoopPrivate → EventLoopPrivate}
  {entry : EventEntry}

theorem Tidy.modifyLoop (h : s.Tidy) : (s.modifyLoop l g).Tidy := by
  refine h.of_loops (fun o ho => ?_) rfl rfl
  change update s.loops l ((s.loops l).map g) o = none
  rcases eq_or_ne o l with rfl | hne
  · rw [update_self, ho]
    rfl
  · rw [update_of_ne hne, ho]

theorem Tidy.setQueue (h : s.Tidy) (q : List EventEntry) : (s.setQueue l q).Tidy := h.modifyLoop

theorem Tidy.deleteEvents (h : s.Tidy) (entries : List EventEntry) :
    (s.deleteEvents entries).Tidy :=
  ⟨h.fresh, h.building, h.distinct⟩

theorem Books.removeEntries (hloop : (s.loops l).isSome) (receiver : Nat) :
    Books s (s.removeEntries l receiver) := by
  intro h
  rw [State.removeEntries, takeEventsFor_eq]
  constructor
  · exact (h.setQueue _).deleteEvents _
  · apply Relation.ReflTransGen.single
    have := discard s.ledger l fun entry => decide (entry.mReceiver = receiver)
    convert this using 1
    exact ledger_eq (queue_setQueue hloop _) rfl rfl rfl

theorem Books.purgePending {loop : Option Nat} (h : s.purgePending loop receiver = some s') :
    Books s s' := by
  unfold State.purgePending at h
  cases loop with
  | none =>
    cases h
    exact .refl s
  | some l =>
    dsimp only at h
    split at h
    next hloop =>
      cases h
      exact .removeEntries hloop receiver
    · cases h

theorem Books.sweep (h : s.sweep t o = some s') : Books s s' := by
  unfold State.sweep at h
  split at h
  · cases h
  · obtain ⟨u, hfirst, hsecond⟩ := bind_eq_some_iff.mp h
    exact (Books.purgePending hfirst).trans (.purgePending hsecond)

theorem Books.enqueueEvent {type : EventType} {priority : Int}
    (h : s.enqueueEvent l receiver type priority = some s') : Books s s' := by
  unfold State.enqueueEvent at h
  split at h
  next hloop =>
    intro htidy
    split at h
    · cases h
      refine ⟨⟨htidy.fresh, htidy.building, htidy.distinct⟩, .single ?_⟩
      exact compress s.ledger
    · cases h
      constructor
      · have hnext : State.Tidy { s with nextEvent := s.nextEvent + 1 } :=
          ⟨htidy.fresh, htidy.building, htidy.distinct⟩
        exact hnext.setQueue _
      · apply Relation.ReflTransGen.single
        have := enqueue s.ledger l ⟨receiver, ⟨s.nextEvent, type, l⟩, priority⟩ rfl
        convert this using 1
        exact ledger_eq (queue_setQueue hloop _) rfl rfl rfl
  · cases h

/-! ### Destruction -/

/-- `~EventLoop` deletes what is queued. -/
theorem Books.drain (s : State) (o : Nat) :
    Books s ((s.deleteEvents (s.queue o)).setQueue o []) := by
  intro h
  refine ⟨(h.deleteEvents _).setQueue _, .single ?_⟩
  have := discard s.ledger o fun _ => true
  convert this using 1
  simp only [ledger, Ledger.mk.injEq, queue_drain]
  simp [setQueue, modifyLoop, deleteEvents, deletions]

theorem Books.delete (h : s.delete t o = some s') : Books s s' := by
  unfold State.delete at h
  split at h
  · cases h
  · obtain ⟨u, hsweep, rfl⟩ := map_eq_some_iff.mp h
    exact ((Books.drain s o).trans (.sweep hsweep)).trans (.push rfl rfl)

theorem Tidy.erase (h : s.Tidy) (o : Nat) : (s.erase o).Tidy := by
  refine h.of_loops (fun i hi => ?_) rfl rfl
  change update s.loops o none i = none
  rcases eq_or_ne i o with rfl | hne
  · exact update_self ..
  · rw [update_of_ne hne, hi]

theorem ledger_erase (s : State) (o : Nat) : (s.erase o).ledger = s.ledger.lose o := by
  refine ledger_eq ?_ rfl rfl rfl
  funext i
  change _ = update s.queue o [] i
  rcases eq_or_ne i o with rfl | hne
  · rw [update_self]
    exact queue_of_none (update_self ..)
  · simp [queue, State.erase, update_of_ne hne]

theorem release_lose (htop : s.top t = some (.destroying o)) (parent : Option Nat) :
    (s.Tidy → ((s.pop t).release o parent).Tidy) ∧
      ((s.pop t).release o parent).ledger = s.ledger.lose o := by
  have hledger : (s.pop t).ledger = s.ledger :=
    ledger_congr rfl (filterMap_pop htop rfl) rfl rfl
  rw [← hledger]
  cases parent with
  | none => exact ⟨fun h => (h.pop t).erase o, ledger_erase _ o⟩
  | some p =>
    refine ⟨fun h => ?_, ledger_erase _ o⟩
    exact (Books.modifyObject (s.pop t) p _ (h.pop t)).1.erase o

/-! ### Construction -/

theorem Books.adopt (s : State) (o : Nat) (parent : Option Nat) : Books s (s.adopt o parent) := by
  cases parent with
  | none => exact .refl s
  | some p => exact (Books.modifyObject s o _).trans (.modifyObject _ _ _)

theorem Books.create (s : State) (t : ThreadId) : Books s (s.create t) := by
  intro htidy
  refine ⟨⟨fun o ho => htidy.fresh o (Nat.le_of_succ_le ho), ?_, htidy.distinct⟩, .refl⟩
  intro t' o hmem
  obtain ⟨hlt, hnone⟩ := htidy.building t' o hmem
  exact ⟨Nat.lt_succ_of_lt hlt, hnone⟩

/-- A loop is installed where there was none, and not again. -/
theorem Books.installLoop (hloop : s.loops o = none) (hlt : o < s.nextObject)
    (hframes : ∀ t', (t', Frame.construct o) ∉ s.frames) : Books s (s.installLoop t o) := by
  have hother : ∀ i, i ≠ o → (s.installLoop t o).loops i = s.loops i :=
    fun i hne => update_of_ne hne ..
  have hqueue : (s.installLoop t o).queue = s.queue := by
    funext i
    rcases eq_or_ne i o with rfl | hne
    · rw [queue_of_none hloop]
      simp [queue, installLoop]
    · simp [queue, hother i hne]
  refine .of_ledger (fun h => ⟨?_, ?_, h.distinct⟩) (ledger_eq hqueue rfl rfl rfl)
  · intro i hi
    have hne : i ≠ o := by
      change s.nextObject ≤ i at hi
      omega
    rw [hother i hne]
    exact h.fresh i hi
  · intro t' i hmem
    have hne : i ≠ o := by
      rintro rfl
      exact hframes t' hmem
    rw [hother i hne]
    exact h.building t' i hmem

theorem Books.newLoop (s : State) (t : ThreadId) :
    Books s ((s.create t).installLoop t s.nextObject) := by
  intro htidy
  refine (Books.create s t).trans (.installLoop ?_ (Nat.lt_succ_self _) ?_) htidy
  · exact htidy.fresh _ (Nat.le_refl _)
  · exact fun t' hmem => Nat.lt_irrefl _ (htidy.building t' _ hmem).1

theorem Books.newChildLoop (s : State) (t : ThreadId) (p : Nat) :
    Books s (((s.create t).adopt s.nextObject (some p)).push t (.construct s.nextObject)) := by
  intro htidy
  refine ((Books.create s t).trans (.adopt _ s.nextObject (some p))).trans ?_ htidy
  intro hu
  refine ⟨⟨hu.fresh, ?_, ?_⟩, .refl⟩
  · intro t' o hmem
    rcases mem_cons.mp hmem with heq | hmem
    · cases heq
      exact ⟨Nat.lt_succ_self _, htidy.fresh _ (Nat.le_refl _)⟩
    · exact hu.building t' o hmem
  · simp only [State.push, filterMap_cons, Frame.constructing, nodup_cons]
    refine ⟨?_, hu.distinct⟩
    rw [mem_filterMap]
    rintro ⟨⟨t', f⟩, hmem, heq⟩
    cases f with
    | construct o =>
      cases heq
      exact Nat.lt_irrefl _ (htidy.building t' _ hmem).1
    | _ => cases heq

theorem Books.constructed (htop : s.top t = some (.construct o)) :
    Books s ((s.pop t).installLoop t o) := by
  intro htidy
  obtain ⟨hlt, hnone⟩ := htidy.building t o (top_mem htop)
  refine (Books.pop htop rfl).trans (.installLoop hnone hlt ?_) htidy
  -- its own frame was the only one for this loop
  intro t' hmem
  have hdistinct := (filterMap_perm (v := Frame.constructing) htop rfl).nodup_iff.mp htidy.distinct
  exact (nodup_cons.mp hdistinct).1 (mem_filterMap.mpr ⟨_, hmem, rfl⟩)

/-! ### Migration -/

theorem Books.setQueue_self : Books s (s.setQueue l (s.queue l)) := by
  by_cases hloop : (s.loops l).isSome
  · refine .of_ledger (·.setQueue _) (ledger_eq ?_ rfl rfl rfl)
    rw [queue_setQueue hloop, update_eq_self]
    rfl
  · rw [setQueue_of_none (by simpa using hloop)]
    exact .refl s

/-- The next step of the migration takes the entries of `o` from the queue of `l` to the
queue of `l'`. -/
def Carries (s : State) (a : Action) (o l l' : Nat) : Prop :=
  a = .transfer ∧ l ≠ l' ∧ ∃ rest, s.pending = .migrating (some l') ((o, some l) :: rest)

theorem Books.migratingRest : Books s { s with pending := migratingRest target rest } :=
  .of_same rfl rfl rfl rfl rfl

/-- Nothing is queued for an object without a loop. -/
theorem Books.takeNone (htake : s.takeFrom o none = some (entries, u))
    (hgive : u.giveTo entries target = some s') : Books s s' := by
  cases htake
  cases target with
  | none =>
    cases hgive
    exact .of_same rfl rfl (append_nil _) rfl rfl
  | some l =>
    obtain ⟨-, rfl⟩ := giveTo_some hgive
    rw [append_nil]
    exact .setQueue_self

/-- Without a target the entries are discarded. -/
theorem Books.giveNone (htake : s.takeFrom o (some l) = some (entries, u))
    (hgive : u.giveTo entries none = some s') : Books s s' := by
  obtain ⟨hloop, rfl, rfl⟩ := takeFrom_some htake
  cases hgive
  have hremoved := Books.removeEntries hloop o
  rwa [State.removeEntries, takeEventsFor_eq] at hremoved

/-- Taking the entries from one queue and giving them to another is a transfer. -/
theorem takeGive_ledger (hll : l ≠ l') (htake : s.takeFrom o (some l) = some (entries, u))
    (hgive : u.giveTo entries (some l') = some s') :
    s'.ledger = s.ledger.transfer l l' fun entry => decide (entry.mReceiver = o) := by
  obtain ⟨hloop, rfl, rfl⟩ := takeFrom_some htake
  obtain ⟨hloop', rfl⟩ := giveTo_some hgive
  refine ledger_eq ?_ rfl rfl rfl
  rw [queue_setQueue hloop', queue_setQueue hloop, update_of_ne (Ne.symm hll)]
  rfl

theorem Tidy.takeGive (htidy : s.Tidy)
    (htake : s.takeFrom o (some l) = some (entries, u))
    (hgive : u.giveTo entries (some l') = some s') : s'.Tidy := by
  obtain ⟨-, rfl, rfl⟩ := takeFrom_some htake
  obtain ⟨-, rfl⟩ := giveTo_some hgive
  exact (htidy.setQueue _).setQueue _

/-! ### Running a loop -/

theorem Books.modifyLoop (hg : ∀ d, (g d).mEventQueue = d.mEventQueue) :
    Books s (s.modifyLoop l g) :=
  .of_ledger (·.modifyLoop) (ledger_eq (queue_modifyLoop hg) rfl rfl rfl)

theorem Books.dispatch {queue : List EventEntry}
    (hqueue : s.queue l = entry :: queue) (intercepted : Bool) :
    Books s { ((s.setQueue l queue).push t (.dispatch entry)) with
      history := s.history ++ if intercepted then [] else [.handed entry.mEvent.id] } := by
  have hloop : (s.loops l).isSome := by
    cases hl : s.loops l with
    | none =>
      rw [queue_of_none hl] at hqueue
      cases hqueue
    | some d => rfl
  intro htidy
  constructor
  · have hset : (s.setQueue l queue).Tidy := htidy.setQueue _
    refine ⟨hset.fresh, ?_, hset.distinct⟩
    intro t' o hmem
    rcases mem_cons.mp hmem with heq | hmem
    · cases heq
    · exact hset.building t' o hmem
  · apply Relation.ReflTransGen.single
    have := send s.ledger l entry queue intercepted hqueue
    convert this using 1
    exact ledger_eq (queue_setQueue hloop _) rfl rfl rfl

theorem Books.finishDispatch (htop : s.top t = some (.dispatch entry)) :
    Books s ((s.pop t).deleteEvents [entry]) := by
  intro htidy
  refine ⟨(htidy.pop t).deleteEvents _, .single ?_⟩
  exact finish s.ledger entry (s.pop t).ledger.inFlight (filterMap_perm htop rfl)

/-! ### Steps -/

/-- The step ends the destructor of `o`, whose memory goes. -/
def Releases (s : State) (t : ThreadId) (a : Action) (o : Nat) : Prop :=
  a = .cascade ∧ s.top t = some (.destroying o) ∧
    ∃ d, s.objects o = some d ∧ d.mChildren = []

/-- What a step does to the events: moves within queues, one transfer, or the end of a
queue. -/
inductive Accounts (s : State) (t : ThreadId) (a : Action) (s' : State) : Prop where
  | moves : Books s s' → (∀ o l l', ¬ Carries s a o l l') → (∀ o, ¬ Releases s t a o) →
      Accounts s t a s'
  | transfer (o l l' : Nat) : Carries s a o l l' → (s.Tidy → s'.Tidy) →
      s'.ledger = s.ledger.transfer l l' (fun entry => decide (entry.mReceiver = o)) →
      Accounts s t a s'
  | lose (o : Nat) : Releases s t a o → (s.Tidy → s'.Tidy) → s'.ledger = s.ledger.lose o →
      Accounts s t a s'

theorem Books.accounts (h : Books s s') (htransfer : a ≠ .transfer) (hcascade : a ≠ .cascade) :
    Accounts s t a s' :=
  .moves h (fun _ _ _ hcarries => htransfer hcarries.1) fun _ hreleases => hcascade hreleases.1

theorem transfer_accounts {old : Option Nat}
    (hpending : s.pending = .migrating target ((o, old) :: rest)) (hne : old ≠ target)
    (htake : { s with pending := migratingRest target rest }.takeFrom o old =
      some (entries, u))
    (hgive : u.giveTo entries target = some s') : Accounts s t .transfer s' := by
  have hrest := @Books.migratingRest s target rest
  have hcarried : ∀ {i l l'}, Carries s .transfer i l l' → old = some l ∧ target = some l' := by
    rintro i l l' ⟨-, -, rest', hpending'⟩
    rw [hpending] at hpending'
    cases hpending'
    exact ⟨rfl, rfl⟩
  cases old with
  | none =>
    refine .moves (hrest.trans (.takeNone htake hgive)) ?_ fun _ => nofun
    intro i l l' hcarries
    cases (hcarried hcarries).1
  | some l =>
    cases target with
    | none =>
      refine .moves (hrest.trans (.giveNone htake hgive)) ?_ fun _ => nofun
      intro i l l' hcarries
      cases (hcarried hcarries).2
    | some l' =>
      have hll : l ≠ l' := fun heq => hne (congrArg some heq)
      refine .transfer o l l' ⟨rfl, hll, rest, hpending⟩ ?_ ?_
      · intro htidy
        exact (hrest htidy).1.takeGive htake hgive
      · have hmoved := takeGive_ledger hll htake hgive
        exact hmoved

/-- **Every step is a sequence of moves, a transfer, or the end of a queue.** -/
theorem step_accounts (h : s.step (t, a) = some s') : Accounts s t a s' := by
  obtain ⟨heffect, -⟩ := step_effect h
  cases heffect with
  | stay htransfer hcascade => exact Books.accounts (Books.refl s) htransfer hcascade
  | newObject => exact Books.accounts ((Books.create s t).trans (.adopt _ _ _)) nofun nofun
  | newLoop => exact Books.accounts (Books.newLoop s t) nofun nofun
  | newChildLoop => exact Books.accounts (Books.newChildLoop s t _) nofun nofun
  | constructed htop => exact Books.accounts (Books.constructed htop) nofun nofun
  | firstParent => exact Books.accounts (Books.adopt s _ _) nofun nofun
  | leaveParent =>
    exact Books.accounts ((Books.modifyObject s _ _).trans (.push rfl rfl)) nofun nofun
  | childRemoved htop =>
    refine Books.accounts ?_ nofun nofun
    exact ((Books.pop htop rfl).trans (.modifyObject _ _ _)).trans (.adopt _ _ _)
  | destroy hdelete => exact Books.accounts (Books.delete hdelete) nofun nofun
  | deleteThis _ _ hdelete => exact Books.accounts (Books.delete hdelete) nofun nofun
  | @cascadeChild o c cs d _ htop hfound hchildren hdelete =>
    refine .moves (Books.delete hdelete) (fun _ _ _ => nofun) ?_
    rintro i ⟨-, htop', d', hfound', hnone⟩
    -- the object on top still has a child
    cases htop.symm.trans htop'
    cases hfound.symm.trans hfound'
    cases hchildren.symm.trans hnone
  | cascadeEnd htop hfound hchildren =>
    obtain ⟨htidy, hledger⟩ := release_lose htop _
    exact .lose _ ⟨rfl, htop, _, hfound, hchildren⟩ htidy hledger
  | enqueue hreceiver _ _ henqueue =>
    refine Books.accounts (Books.enqueueEvent henqueue) ?_ ?_
    all_goals
      rintro rfl
      cases hreceiver
  | removePendingEvents hsweep => exact Books.accounts (Books.sweep hsweep) nofun nofun
  | moveToLoop | processEvents => exact Books.accounts (Books.push rfl rfl) nofun nofun
  | relink htop =>
    refine Books.accounts ?_ nofun nofun
    exact ((Books.pop htop rfl).trans (.modifyObject _ _ _)).trans (.push rfl rfl)
  | migrate htop =>
    refine Books.accounts ?_ nofun nofun
    exact (Books.pop htop rfl).trans (.of_same rfl rfl rfl rfl rfl)
  | transferNone hpending =>
    refine .moves .migratingRest ?_ fun _ => nofun
    rintro o l l' ⟨-, hll, rest, hpending'⟩
    rw [hpending] at hpending'
    cases hpending'
    exact hll rfl
  | transfer hpending hne htake hgive => exact transfer_accounts hpending hne htake hgive
  | dispatch _ hqueue _ => exact Books.accounts (Books.dispatch hqueue _) nofun nofun
  | finishDispatch htop => exact Books.accounts (Books.finishDispatch htop) nofun nofun
  | endProcess htop => exact Books.accounts (Books.pop htop rfl) nofun nofun
  | @exec l =>
    have hloop : Books s (s.modifyLoop l fun d => { d with mInExec := true, mExit := false }) :=
      .modifyLoop fun _ => rfl
    refine Books.accounts ?_ nofun nofun
    refine (hloop.trans (.push (t := t) (f := .exec l (s.current t)) rfl rfl)).trans ?_
    exact .of_same rfl rfl rfl rfl rfl
  | @endExec l previous htop =>
    have hloop : Books (s.pop t) ((s.pop t).modifyLoop l fun d => { d with mInExec := false }) :=
      .modifyLoop fun _ => rfl
    refine Books.accounts ?_ nofun nofun
    refine ((Books.pop htop rfl).trans hloop).trans ?_
    exact .of_same rfl rfl rfl rfl rfl
  | exit htransfer hcascade =>
    exact Books.accounts (Books.modifyLoop fun _ => rfl) htransfer hcascade

/-- What every step keeps: tidiness, and all events accounted for. -/
def Kept (s : State) : Prop := s.Tidy ∧ s.ledger.Conserved

theorem step_kept {a : ThreadId × Action} (h : s.Kept) (hstep : s.step a = some s') : s'.Kept := by
  cases step_accounts hstep with
  | moves hbooks =>
    obtain ⟨htidy, hmoves⟩ := hbooks h.1
    exact ⟨htidy, h.2.moves hmoves⟩
  | transfer o l l' hcarries htidy hledger =>
    rw [Kept, hledger]
    exact ⟨htidy h.1, h.2.transfer hcarries.2.1 _⟩
  | lose o _ htidy hledger =>
    rw [Kept, hledger]
    exact ⟨htidy h.1, h.2.lose o⟩

theorem tidy_init : init.Tidy where
  fresh _ _ := rfl
  building _ _ hmem := by cases hmem
  distinct := nodup_nil

theorem kept_init : init.Kept :=
  ⟨tidy_init, 0, fun _ _ => rfl, fun e => .unissued (Nat.zero_le e)⟩

end State

end CxxKit.Kernel
