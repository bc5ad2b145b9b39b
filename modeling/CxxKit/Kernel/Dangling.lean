import CxxKit.Kernel.Affinity

/-!
No queue holds an entry of an object that is gone.

`~Object` sweeps the loop the object belongs to and the current loop.  That is enough
unless `delete_later` has put an entry on the queue of a loop the object does not belong
to, a `move_to_loop` is in progress, or an event is posted to the object after the
sweeps, while its children are destroyed; `Careful` says what a step must respect, and
`no_dangling_entries` is the result for whole runs.
-/

namespace CxxKit.Kernel

open List State Transition

/-- The step is one in which thread `t` begins to delete `o`. -/
inductive Deleting (s : State) : ThreadId × Action → ThreadId → Nat → Prop where
  | destroy (t : ThreadId) (o : Nat) : Deleting s (t, .destroy o) t o
  | deleteThis {t : ThreadId} {entry : EventEntry} :
      s.top t = some (.dispatch entry) → entry.mEvent.type = .kDeferredDelete →
      Deleting s (t, .objectEvent) t entry.mReceiver
  | child {t : ThreadId} {o c : Nat} {cs : List Nat} {d : ObjectPrivate} :
      s.top t = some (.destroying o) → s.objects o = some d → d.mChildren = c :: cs →
      Deleting s (t, .cascade) t c

/-- What a step must respect. -/
structure Careful (s : State) (a : ThreadId × Action) : Prop where
  /-- An object that is deleted is not being moved and, if it belongs to no loop, has its
  entries on the current one. -/
  delete : ∀ t o, Deleting s a t o → s.Swept t o ∧ ¬ s.InMove o
  /-- An object without a loop that is bound to one has its entries there. -/
  bind : ∀ target moved o rest, a.2 = .relink →
    s.top a.1 = some (.relink target moved (o :: rest)) → s.affinity o = some none →
    ∀ l, ∀ entry ∈ s.queue l, entry.mReceiver = o → target = none ∨ target = some l
  /-- No object of a subtree that is moved is being moved already. -/
  move : ∀ o target rounds, a.2 = .moveToLoop o target rounds → s.affinity o ≠ some target →
    ∀ x, s.Subtree o x → ¬ s.InMove x
  /-- A loop whose constructor ends still belongs to the current loop. -/
  construct : ∀ o, a.2 = .constructed → s.top a.1 = some (.construct o) →
    s.affinity o = some (s.current a.1)
  /-- No event is enqueued for an object whose destructor has swept the queues. -/
  enqueue : ∀ o, a.2.receiver = some o → o ∉ s.destroyed

/-- Every queued entry has a receiver that is there and not being deleted. -/
def NoDangling (s : State) : Prop :=
  ∀ l, ∀ entry ∈ s.queue l, s.alive entry.mReceiver = true ∧ entry.mReceiver ∉ s.destroyed

namespace State

variable {s s' : State} {t : ThreadId}

theorem Located.noDangling (h : s.Located) : NoDangling s := by
  intro l entry hentry
  obtain ⟨thread, hthread, -⟩ := h.entries l entry hentry
  refine ⟨alive_iff.mpr ⟨thread, hthread⟩, ?_⟩
  intro hdestroyed
  exact h.dying _ hdestroyed l entry hentry rfl

theorem located_init : init.Located where
  fresh _ _ := rfl
  entries _ _ hentry := by cases hentry
  dying _ ho := by cases ho
  moves _ hm := by cases hm
  once _ := Nat.zero_le 1
  relinked _ _ hmig := by cases hmig

section

variable (h : s.Located) {f : Frame}

include h

/-- A step that changes frames and flags only. -/
theorem Located.of_frames (hobjects : s'.objects = s.objects)
    (hqueue : s'.queue = s.queue) (hpending : s'.pending = s.pending)
    (hnext : s'.nextObject = s.nextObject) (hmovings : s'.movings = s.movings)
    (hdestroyed : s'.destroyed = s.destroyed) : s'.Located := by
  refine h.of_same ?_ (affinity_congr hobjects) hmovings ?_ ?_ hnext
  · intro l
    rw [hqueue]
    exact List.Subset.refl _
  · rw [hdestroyed]
    exact List.Subset.refl _
  · rw [migrating, migrating, hpending]

theorem Located.push (hf : f.moving = none) (hf' : f.destroyed = none) : (s.push t f).Located :=
  h.of_frames rfl rfl rfl rfl (movings_push s t hf) (filterMap_push hf' t)

theorem Located.pop (htop : s.top t = some f) (hf : f.moving = none)
    (hf' : f.destroyed = none) : (s.pop t).Located :=
  h.of_frames rfl rfl rfl rfl (movings_pop htop hf) (filterMap_pop htop hf')

theorem Located.modifyObject (o : Nat) (g : ObjectPrivate → ObjectPrivate)
    (hg : ∀ d, (g d).mThread = d.mThread) : (s.modifyObject o g).Located :=
  h.of_same (fun _ => List.Subset.refl _) (affinity_modifyObject s o hg) rfl
    (List.Subset.refl _) rfl rfl

theorem Located.modifyLoop (l : Nat) {g : EventLoopPrivate → EventLoopPrivate}
    (hg : ∀ d, (g d).mEventQueue = d.mEventQueue) : (s.modifyLoop l g).Located :=
  h.of_frames rfl (queue_modifyLoop hg) rfl rfl rfl rfl

theorem Located.sweep {o : Nat} (hsweep : s.sweep t o = some s') : s'.Located := by
  obtain ⟨d, -, hp⟩ := sweep_purged hsweep
  refine h.of_same ?_ (affinity_congr hp.objects) ?_ ?_ ?_ hp.nextObject
  · intro l
    rw [hp.queue]
    split
    · exact filter_sublist.subset
    · exact List.Subset.refl _
  · rw [movings, movings, hp.frames]
  · rw [destroyed, hp.frames]
    exact List.Subset.refl _
  · rw [migrating, migrating, hp.pending]

theorem Located.dispatch {l : Nat} {entry : EventEntry} {queue : List EventEntry}
    {history : List Happening} (hqueue : s.queue l = entry :: queue) :
    { ((s.setQueue l queue).push t (.dispatch entry)) with history := history }.Located := by
  refine h.of_same ?_ rfl (movings_push (s.setQueue l queue) t rfl) (List.Subset.refl _) rfl rfl
  intro l'
  change (s.setQueue l queue).queue l' ⊆ s.queue l'
  have hloop : (s.loops l).isSome := by
    rw [Option.isSome_iff_ne_none]
    intro hnone
    rw [queue_of_none hnone] at hqueue
    cases hqueue
  rw [queue_setQueue hloop]
  rcases eq_or_ne l' l with rfl | hne
  · rw [Function.update_self, hqueue]
    exact subset_cons_self ..
  · rw [Function.update_of_ne hne]
    exact List.Subset.refl _

end

theorem step_located {a : ThreadId × Action} (htidy : s.Tidy) (h : s.Located) (hcare : Careful s a)
    (hstep : s.step a = some s') : s'.Located := by
  obtain ⟨t, a⟩ := a
  obtain ⟨heffect, hwhen⟩ := step_effect hstep
  cases heffect with
  | stay => exact h
  | newObject =>
    have hidle : s.pending = .nothing := by simpa using hwhen
    exact (h.create hidle t).adopt _ _
  | newLoop =>
    have hidle : s.pending = .nothing := by simpa using hwhen
    exact (h.create hidle t).installLoop (htidy.fresh _ (Nat.le_refl _)) (create_affinity s t)
  | newChildLoop =>
    have hidle : s.pending = .nothing := by simpa using hwhen
    exact ((h.create hidle t).adopt _ _).push rfl rfl
  | constructed htop =>
    refine (h.pop htop rfl rfl).installLoop ?_ ?_
    · exact (htidy.building t _ (top_mem htop)).2
    · exact hcare.construct _ rfl htop
  | firstParent => exact h.adopt _ _
  | leaveParent =>
    refine Located.push ?_ rfl rfl
    exact h.modifyObject _ _ fun _ => rfl
  | childRemoved htop =>
    refine Located.adopt ?_ _ _
    exact (h.pop htop rfl rfl).modifyObject _ _ fun _ => rfl
  | destroy hdelete =>
    have hidle : s.pending = .nothing := by simpa using hwhen
    obtain ⟨d, hdel⟩ := delete_deletes hdelete
    obtain ⟨hswept, hmove⟩ := hcare.delete _ _ (.destroy t _)
    exact h.deletes hdel (migrating_of_idle hidle) hswept hmove
  | deleteThis htop htype hdelete =>
    have hidle : s.pending = .nothing := by simpa using hwhen
    obtain ⟨d, hdel⟩ := delete_deletes hdelete
    obtain ⟨hswept, hmove⟩ := hcare.delete _ _ (.deleteThis htop htype)
    exact h.deletes hdel (migrating_of_idle hidle) hswept hmove
  | cascadeChild htop hfound hchildren hdelete =>
    have hidle : s.pending = .nothing := by simpa using hwhen
    obtain ⟨d, hdel⟩ := delete_deletes hdelete
    obtain ⟨hswept, hmove⟩ := hcare.delete _ _ (.child htop hfound hchildren)
    exact h.deletes hdel (migrating_of_idle hidle) hswept hmove
  | cascadeEnd htop =>
    have hidle : s.pending = .nothing := by simpa using hwhen
    exact h.release htop (migrating_of_idle hidle) _
  | enqueue hreceiver hfound hloop henqueue =>
    exact h.enqueue henqueue (hcare.enqueue _ hreceiver) hfound hloop
  | removePendingEvents hsweep => exact h.sweep hsweep
  | @moveToLoop o rounds target d moved hfound hother hcollect =>
    have haffinity := affinity_of_found hfound
    have hroot : s.Subtree o o := .refl
    have hrecorded := collect_recorded (forall_mem_singleton.mpr hroot)
      (forall_mem_singleton.mpr ⟨hroot, haffinity⟩) hcollect
    refine h.moveToLoop (fun x hx => (hrecorded x hx).2) ?_
    intro x hx
    refine hcare.move _ _ _ rfl ?_ x.1 (hrecorded x hx).1
    rw [haffinity]
    exact fun heq => hother (Option.some.inj heq)
  | relink htop halive =>
    have hidle : s.pending = .nothing := by simpa using hwhen
    exact h.relink hidle htop halive (hcare.bind _ _ _ _ rfl htop)
  | migrate htop =>
    have hidle : s.pending = .nothing := by simpa using hwhen
    exact h.migrate hidle htop
  | transferNone hpending =>
    refine h.transferred hpending rfl rfl rfl rfl ?_
    intro l entry hentry
    exact .inl ⟨hentry, fun _ heq => heq⟩
  | transfer hpending _ htake hgive => exact h.transfer hpending htake hgive
  | processEvents => exact h.push rfl rfl
  | dispatch _ hqueue => exact h.dispatch hqueue
  | finishDispatch htop => exact (h.pop htop rfl rfl).of_frames rfl rfl rfl rfl rfl rfl
  | endProcess htop => exact h.pop htop rfl rfl
  | exec =>
    refine ((h.modifyLoop _ ?_).push rfl rfl).of_frames rfl rfl rfl rfl rfl rfl
    exact fun _ => rfl
  | endExec htop =>
    refine ((h.pop htop rfl rfl).modifyLoop _ ?_).of_frames rfl rfl rfl rfl rfl rfl
    exact fun _ => rfl
  | exit => exact h.modifyLoop _ fun _ => rfl

end State

/-- **No dangling entries**, in every state of a run whose steps are all careful. `~Object` sweeps
the queue of its own loop and the current one, and the entries of an object that is deleted are on
these two only. -/
theorem no_dangling_entries (run : List (ThreadId × Action))
    (h : machine.Meets Careful init run) : machine.Always NoDangling init run := by
  have hboth : machine.Always (fun s => s.Kept ∧ s.Located) init run := by
    refine Machine.always_of_meets ?_ ⟨kept_init, located_init⟩ h
    rintro s a s' ⟨hkept, hlocated⟩ hcare hstep
    exact ⟨step_kept hkept hstep, step_located hkept.1 hlocated hcare hstep⟩
  exact hboth.mono fun s h => h.2.noDangling

theorem Careful.of_delete {s : State} {t : ThreadId} {a : Action} (hrelink : a ≠ .relink)
    (hconstructed : a ≠ .constructed) (hmove : ∀ o target rounds, a ≠ .moveToLoop o target rounds)
    (hdelete : ∀ t' o, Deleting s (t, a) t' o → s.Swept t' o ∧ ¬ s.InMove o)
    (henqueue : ∀ o, a.receiver = some o → o ∉ s.destroyed) : Careful s (t, a) where
  delete := hdelete
  bind _ _ _ _ h := absurd h hrelink
  move o target rounds h := absurd h (hmove o target rounds)
  construct _ h := absurd h hconstructed
  enqueue := henqueue

/-- An object that belongs to no loop is scheduled for deletion while a loop runs, and
destroyed before the loop gets to it.  The destructor of its child, which runs after the
sweeps, posts to an object of the loop. -/
def sweptRun : List (ThreadId × Action) :=
  [.newLoop none, .newObject none, .exec 0, .newObject (some 1), .newObject none, .deleteLater 1,
    .destroy 1, .postEvent 3 .other 0, .cascade].map fun a => (0, a)

theorem no_dangling_while_running : (machine.run init sweptRun).isSome = true ∧
      machine.Always NoDangling init sweptRun := by
  refine ⟨rfl, no_dangling_entries sweptRun ?_⟩
  rintro s₁ ⟨⟩
  refine ⟨.of_delete nofun nofun nofun nofun nofun, ?_⟩
  rintro s₂ ⟨⟩
  refine ⟨.of_delete nofun nofun nofun nofun nofun, ?_⟩
  rintro s₃ ⟨⟩
  refine ⟨.of_delete nofun nofun nofun nofun nofun, ?_⟩
  rintro s₄ ⟨⟩
  refine ⟨.of_delete nofun nofun nofun nofun nofun, ?_⟩
  rintro s₅ ⟨⟩
  refine ⟨.of_delete nofun nofun nofun nofun nofun, ?_⟩
  rintro s₆ ⟨⟩
  refine ⟨.of_delete nofun nofun nofun nofun fun _ _ => not_mem_nil, ?_⟩
  rintro s₇ ⟨⟩
  refine ⟨.of_delete nofun nofun nofun ?_ nofun, ?_⟩
  · rintro t o ⟨⟩
    refine ⟨?_, ?_⟩
    · -- the only entry is on the loop that runs
      rintro - l entry hentry -
      cases l with
      | zero => rfl
      | succ l => cases hentry
    · rintro ⟨m, hm, -⟩
      cases hm
  rintro s₈ ⟨⟩
  refine ⟨.of_delete nofun nofun nofun nofun ?_, ?_⟩
  · -- the event is for another object than the one that is being destroyed
    rintro o ⟨⟩ ho
    cases ho with
    | tail _ ho => cases ho
  rintro s₉ ⟨⟩
  refine ⟨.of_delete nofun nofun nofun ?_ nofun, trivial⟩
  intro t o hdeleting
  obtain ⟨⟩ | ⟨⟩ | ⟨htop, hfound, hchildren⟩ := hdeleting
  cases htop
  cases hfound
  cases hchildren
  refine ⟨nofun, ?_⟩
  rintro ⟨m, hm, -⟩
  cases hm

/-- As before, but the object is destroyed after the loop has stopped. -/
def strandedRun : List (ThreadId × Action) :=
  [.newLoop none, .newObject none, .exec 0, .deleteLater 1, .exit 0, .endExec, .destroy 1,
    .cascade].map fun a => (0, a)

/-- The sweep of `~Object` does not find what the fallback of `delete_later` queued. -/
theorem stranded_entry_dangles : ∃ s, machine.run init strandedRun = some s ∧
      (∃ entry ∈ s.queue 0, s.alive entry.mReceiver = false) ∧ ¬ NoDangling s := by
  have hrun : (machine.run init strandedRun).map
      (fun s => (s.queue 0).map fun entry => s.alive entry.mReceiver) = some [false] := by rfl
  obtain ⟨s, hs, hqueue⟩ := Option.map_eq_some_iff.mp hrun
  obtain ⟨entry, rest, hq, hdead, -⟩ := map_eq_cons_iff.mp hqueue
  have hmem : entry ∈ s.queue 0 := hq ▸ mem_cons_self
  refine ⟨s, hs, ⟨entry, hmem, hdead⟩, fun h => ?_⟩
  have halive := (h 0 entry hmem).1
  rw [hdead] at halive
  cases halive

end CxxKit.Kernel
