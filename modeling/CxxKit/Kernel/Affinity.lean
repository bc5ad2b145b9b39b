import CxxKit.Kernel.Bookkeeping

/-!
Where the queued entries of an object can be.

`Located` is the invariant behind the clean-up of `~Object`: the entries of an object
are on the queue of the loop it belongs to, or on a queue a `move_to_loop` in progress
will still take them from; only an object that belongs to no loop may have them
anywhere.  This module says what each operation must respect for it to stay so.
-/

namespace CxxKit.Kernel

open Function List Option State

/-- A `move_to_loop` in progress: its target, the moved objects with the loops they
belonged to, and the objects not relinked yet. -/
structure Moving where
  target : Option Nat
  moved : List (Nat × Option Nat)
  rest : List Nat
deriving DecidableEq

def Moving.covers (m : Moving) (o : Nat) : Bool := o ∈ m.moved.map Prod.fst

def Frame.moving : Frame → Option Moving
  | .relink target moved rest => some ⟨target, moved, rest⟩
  | _ => none

namespace State

/-- The loop an object belongs to; `none` if the object is not there. -/
def affinity (s : State) (o : Nat) : Option (Option Nat) := (s.objects o).map (·.mThread)

def movings (s : State) : List Moving := s.frames.filterMap fun f => f.2.moving

/-- The objects whose entries `move_to_loop` still has to move. -/
def migrating (s : State) : Option (Option Nat × List (Nat × Option Nat)) :=
  match s.pending with
  | .migrating target rest => some (target, rest)
  | _ => none

/-- A `move_to_loop` will still take the entries of `o` from the queue of `l`. -/
def Awaiting (s : State) (o l : Nat) : Prop :=
  (∃ m ∈ s.movings, (o, some l) ∈ m.moved) ∨
    ∃ target rest, s.migrating = some (target, rest) ∧ (o, some l) ∈ rest

/-- Entries of `o` may be on the queue of `l`. -/
def Housed (s : State) (l o : Nat) : Prop :=
  ∃ thread, s.affinity o = some thread ∧ (thread = some l ∨ thread = none ∨ s.Awaiting o l)

/-- What a `move_to_loop` in progress keeps to: an object it moves belongs to the target, or
still to the loop that is recorded for it. -/
structure Moves (s : State) (m : Moving) : Prop where
  relinking : ∀ o, m.covers o = true → ∀ thread, s.affinity o = some thread →
    thread = m.target ∨ (o ∈ m.rest ∧ (o, thread) ∈ m.moved)
  covered : ∀ o ∈ m.rest, m.covers o = true
  known : ∀ o, m.covers o = true → o < s.nextObject

structure Located (s : State) : Prop where
  fresh : ∀ o, s.nextObject ≤ o → s.affinity o = none
  entries : ∀ l, ∀ entry ∈ s.queue l, s.Housed l entry.mReceiver
  dying : ∀ o ∈ s.destroyed, ∀ l, ∀ entry ∈ s.queue l, entry.mReceiver ≠ o
  moves : ∀ m ∈ s.movings, s.Moves m
  once : ∀ o, s.movings.countP (fun m => m.covers o) ≤ 1
  relinked : ∀ target rest, s.migrating = some (target, rest) → ∀ x ∈ rest, ∀ thread,
    s.affinity x.1 = some thread → thread = target

variable {s s' : State} {t : ThreadId} {m : Moving}

/-- The objects that a move covers do not change loops. -/
theorem Moves.of_le (h : s.Moves m) (hnext : s.nextObject ≤ s'.nextObject)
    (haffinity : ∀ o, m.covers o = true → ∀ thread, s'.affinity o = some thread →
      s.affinity o = some thread) : s'.Moves m where
  relinking o hcovers thread hthread :=
    h.relinking o hcovers thread (haffinity o hcovers thread hthread)
  covered := h.covered
  known o hcovers := Nat.lt_of_lt_of_le (h.known o hcovers) hnext

/-- The moves are the same, and no object comes to be or changes loops: what is left to say is about
the entries and about the objects that are dying or whose entries are moved. -/
theorem Located.of_movings (h : s.Located) (hmovings : s'.movings = s.movings)
    (hnext : s'.nextObject = s.nextObject)
    (haffinity : ∀ i thread, s'.affinity i = some thread → s.affinity i = some thread)
    (hentries : ∀ l, ∀ entry ∈ s'.queue l, s'.Housed l entry.mReceiver)
    (hdying : ∀ o ∈ s'.destroyed, ∀ l, ∀ entry ∈ s'.queue l, entry.mReceiver ≠ o)
    (hrelinked : ∀ target rest, s'.migrating = some (target, rest) → ∀ x ∈ rest, ∀ thread,
      s'.affinity x.1 = some thread → thread = target) : s'.Located where
  fresh i hi := by
    rw [hnext] at hi
    refine eq_none_iff_forall_ne_some.mpr fun thread hthread => ?_
    cases (h.fresh i hi).symm.trans (haffinity i thread hthread)
  entries := hentries
  dying := hdying
  moves := by
    rw [hmovings]
    exact fun m hm => (h.moves m hm).of_le (Nat.le_of_eq hnext.symm) fun i _ => haffinity i
  once := by
    rw [hmovings]
    exact h.once
  relinked := hrelinked

/-- Entries may go; nothing else changes. -/
theorem Located.of_same (h : s.Located) (hqueue : ∀ l, s'.queue l ⊆ s.queue l)
    (haffinity : s'.affinity = s.affinity) (hmovings : s'.movings = s.movings)
    (hdestroyed : s'.destroyed ⊆ s.destroyed) (hmigrating : s'.migrating = s.migrating)
    (hnext : s'.nextObject = s.nextObject) : s'.Located := by
  refine h.of_movings hmovings hnext (by rw [haffinity]; exact fun _ _ hi => hi) ?_ ?_ ?_
  · intro l entry hentry
    rw [Housed, haffinity, Awaiting, hmovings, hmigrating]
    exact h.entries l entry (hqueue l hentry)
  · intro o ho l entry hentry
    exact h.dying o (hdestroyed ho) l entry (hqueue l hentry)
  · rw [hmigrating, haffinity]
    exact h.relinked

/-! ### Views -/

theorem affinity_congr (h : s'.objects = s.objects) : s'.affinity = s.affinity := by
  funext o
  rw [affinity, affinity, h]

theorem affinity_modifyObject (s : State) (o : Nat) {g : ObjectPrivate → ObjectPrivate}
    (hg : ∀ d, (g d).mThread = d.mThread) : (s.modifyObject o g).affinity = s.affinity := by
  funext i
  simp only [affinity, modifyObject]
  rcases eq_or_ne i o with rfl | hne
  · rw [update_self]
    cases s.objects i with
    | none => rfl
    | some d => exact congrArg some (hg d)
  · rw [update_of_ne hne]

theorem affinity_adopt (s : State) (o : Nat) (parent : Option Nat) :
    (s.adopt o parent).affinity = s.affinity := by
  cases parent with
  | none => rfl
  | some p =>
    rw [adopt, affinity_modifyObject, affinity_modifyObject]
    · exact fun _ => rfl
    · exact fun _ => rfl

theorem queue_adopt (s : State) (o : Nat) (parent : Option Nat) :
    (s.adopt o parent).queue = s.queue := by
  cases parent <;> rfl

variable {o : Nat} {d : ObjectPrivate} {f : Frame} {rest : List Nat}
  {moved : List (Nat × Option Nat)} {target : Option Nat}

theorem alive_iff : s.alive o = true ↔ ∃ thread, s.affinity o = some thread := by
  rw [alive, affinity, ← isSome_iff_exists, isSome_map]

theorem affinity_of_found (h : s.objects o = some d) : s.affinity o = some d.mThread := by
  rw [affinity, h]
  rfl

theorem migrating_of_idle (h : s.pending = .nothing) : s.migrating = none := by
  rw [migrating, h]

theorem movings_push (s : State) (t : ThreadId) (h : f.moving = none) :
    (s.push t f).movings = s.movings :=
  filterMap_push h t

theorem movings_pop (htop : s.top t = some f) (h : f.moving = none) :
    (s.pop t).movings = s.movings :=
  filterMap_pop htop h

/-- The frame of a `move_to_loop` is one of the moves in progress. -/
theorem movings_perm (htop : s.top t = some f) (h : f.moving = some m) :
    s.movings.Perm (m :: (s.pop t).movings) :=
  filterMap_perm htop h

/-! ### Construction -/

theorem Located.create (h : s.Located) (hidle : s.pending = .nothing) (t : ThreadId) :
    (s.create t).Located := by
  have hnew : s.affinity s.nextObject = none := h.fresh _ (Nat.le_refl _)
  have hother : ∀ o, o ≠ s.nextObject → (s.create t).affinity o = s.affinity o := by
    intro o hne
    simp [affinity, State.create, update_of_ne hne]
  refine ⟨?_, ?_, h.dying, ?_, h.once, ?_⟩
  · intro o ho
    change s.nextObject + 1 ≤ o at ho
    rw [hother o (by omega)]
    exact h.fresh o (by omega)
  · intro l entry hentry
    obtain ⟨thread, hthread, hwhere⟩ := h.entries l entry hentry
    have hne : entry.mReceiver ≠ s.nextObject := by
      intro heq
      rw [heq, hnew] at hthread
      cases hthread
    exact ⟨thread, (hother _ hne).trans hthread, hwhere⟩
  · intro m hm
    refine (h.moves m hm).of_le (Nat.le_succ _) fun o hcovers thread hthread => ?_
    have hlt := (h.moves m hm).known o hcovers
    rwa [hother o (by omega)] at hthread
  · intro target rest hmig
    change s.migrating = _ at hmig
    rw [migrating_of_idle hidle] at hmig
    cases hmig

theorem Located.adopt (h : s.Located) (o : Nat) (parent : Option Nat) :
    (s.adopt o parent).Located := by
  refine h.of_same ?_ (affinity_adopt s o parent) ?_ ?_ ?_ ?_
  · intro l
    rw [queue_adopt]
    exact List.Subset.refl _
  all_goals cases parent <;> first | rfl | exact List.Subset.refl _

/-- Installing a loop changes no queue and, if the object already belongs to the current
loop, no affinity. -/
theorem Located.installLoop (h : s.Located) (hloop : s.loops o = none)
    (haffinity : s.affinity o = some (s.current t)) : (s.installLoop t o).Located := by
  refine h.of_same ?_ ?_ rfl (List.Subset.refl _) rfl rfl
  · intro l
    rcases eq_or_ne l o with rfl | hne
    · simp [queue, State.installLoop]
    · have : (s.installLoop t o).queue l = s.queue l := by
        simp [queue, State.installLoop, update_of_ne hne]
      rw [this]
      exact List.Subset.refl _
  · funext i
    rcases eq_or_ne i o with rfl | hne
    · rw [haffinity]
      simp [affinity, installLoop]
    · simp [affinity, State.installLoop, update_of_ne hne]

theorem create_affinity (s : State) (t : ThreadId) :
    (s.create t).affinity s.nextObject = some ((s.create t).current t) := by
  simp [affinity, create]

/-! ### Deletion -/

/-- Every queue with entries of `o` is swept when `o` is deleted by `t`: if `o` belongs to
no loop, its entries are on the current one. -/
def Swept (s : State) (t : ThreadId) (o : Nat) : Prop :=
  s.affinity o = some none → ∀ l, ∀ entry ∈ s.queue l, entry.mReceiver = o → s.current t = some l

/-- `o` takes part in a `move_to_loop` in progress. -/
def InMove (s : State) (o : Nat) : Prop := ∃ m ∈ s.movings, m.covers o = true

theorem not_awaiting {l : Nat} (hidle : s.migrating = none) (hmove : ¬ s.InMove o) :
    ¬ s.Awaiting o l := by
  rintro (⟨m, hm, hmem⟩ | ⟨target, rest, hmig, -⟩)
  · refine hmove ⟨m, hm, ?_⟩
    exact decide_eq_true (mem_map.mpr ⟨_, hmem, rfl⟩)
  · rw [hidle] at hmig
    cases hmig

theorem Located.deletes (h : s.Located) (hdel : s.Deletes s' t o d)
    (hmig : s.migrating = none) (hswept : s.Swept t o) (hmove : ¬ s.InMove o) : s'.Located := by
  have hsub : ∀ l, s'.queue l ⊆ s.queue l := by
    intro l
    rcases eq_or_ne l o with rfl | hne
    · rw [hdel.own]
      exact nil_subset _
    · rw [hdel.queue l hne]
      split
      · exact filter_sublist.subset
      · exact List.Subset.refl _
  have haffinity := affinity_congr hdel.objects
  have hmovings : s'.movings = s.movings := by
    rw [movings, hdel.frames]
    rfl
  have hmig' : s'.migrating = none := by
    rw [← hmig, migrating, migrating, hdel.pending]
  have hdestroyed : s'.destroyed = o :: s.destroyed := by
    rw [destroyed, hdel.frames]
    rfl
  -- the entries of `o` were on one of the two queues that are swept
  have hgone : ∀ l, ∀ entry ∈ s'.queue l, entry.mReceiver ≠ o := by
    intro l entry hentry heq
    have hne : l ≠ o := by
      rintro rfl
      rw [hdel.own] at hentry
      cases hentry
    have hbefore := hsub l hentry
    obtain ⟨thread, hthread, hwhere⟩ := h.entries l entry hbefore
    rw [heq, affinity_of_found hdel.found, Option.some.injEq] at hthread
    have hmem : some l ∈ [d.mThread, s.current t] := by
      rcases hwhere with rfl | rfl | hawaiting
      · rw [hthread]
        exact mem_cons_self
      · have hnone : s.affinity o = some none := by
          rw [affinity_of_found hdel.found, hthread]
        rw [hswept hnone l entry hbefore heq]
        simp
      · rw [heq] at hawaiting
        exact absurd hawaiting (not_awaiting hmig hmove)
    rw [hdel.queue l hne, if_pos hmem] at hentry
    simp [heq] at hentry
  refine h.of_movings hmovings hdel.nextObject (by rw [haffinity]; exact fun _ _ hi => hi) ?_ ?_ ?_
  · intro l entry hentry
    rw [Housed, haffinity, Awaiting, hmovings, hmig', ← hmig]
    exact h.entries l entry (hsub l hentry)
  · intro i hi l entry hentry
    rw [hdestroyed] at hi
    rcases mem_cons.mp hi with rfl | hi
    · exact hgone l entry hentry
    · exact h.dying i hi l entry (hsub l hentry)
  · intro target rest hrest
    rw [hmig'] at hrest
    cases hrest

theorem affinity_release (s : State) (o : Nat) (parent : Option Nat) :
    (s.release o parent).affinity = update s.affinity o none := by
  have herase : ∀ u : State, (u.erase o).affinity = update u.affinity o none := by
    intro u
    funext i
    rcases eq_or_ne i o with rfl | hne
    · simp [affinity, erase]
    · simp [affinity, erase, update_of_ne hne]
  cases parent with
  | none => exact herase s
  | some p =>
    have hdetach : (s.detachChild p o).affinity = s.affinity :=
      affinity_modifyObject _ _ fun _ => rfl
    rw [release, herase, hdetach]

theorem queue_release (s : State) (o : Nat) (parent : Option Nat) (l : Nat) :
    (s.release o parent).queue l ⊆ s.queue l := by
  have herase : ∀ u : State, u.loops = s.loops → (u.erase o).queue l ⊆ s.queue l := by
    intro u hu
    rcases eq_or_ne l o with rfl | hne
    · rw [queue_of_none (update_self ..)]
      exact nil_subset _
    · have : (u.erase o).queue l = s.queue l := by
        simp [queue, erase, update_of_ne hne, hu]
      rw [this]
      exact List.Subset.refl _
  cases parent with
  | none => exact herase s rfl
  | some p => exact herase _ rfl

/-- The last of an object: nothing is queued for it any more. -/
theorem Located.release (h : s.Located) (htop : s.top t = some (.destroying o))
    (hmig : s.migrating = none) (parent : Option Nat) :
    ((s.pop t).release o parent).Located := by
  obtain ⟨u, hu⟩ : ∃ u, u = (s.pop t).release o parent := ⟨_, rfl⟩
  rw [← hu]
  have haffinity : u.affinity = update s.affinity o none := by
    rw [hu, affinity_release]
    rfl
  have hqueue : ∀ l, u.queue l ⊆ s.queue l := by
    intro l
    rw [hu]
    exact queue_release _ o parent l
  obtain ⟨hframes, hnext, hpending⟩ : u.frames = (s.pop t).frames ∧
      u.nextObject = s.nextObject ∧ u.pending = s.pending := by
    rw [hu]
    cases parent <;> exact ⟨rfl, rfl, rfl⟩
  have hmovings : u.movings = s.movings := by
    rw [movings, hframes]
    exact movings_pop htop rfl
  have hmig' : u.migrating = none := by
    rw [← hmig, migrating, migrating, hpending]
  have hdestroyed : s.destroyed.Perm (o :: u.destroyed) := by
    rw [destroyed, destroyed, hframes]
    exact filterMap_perm htop rfl
  have hleft : ∀ i thread, u.affinity i = some thread → s.affinity i = some thread := by
    intro i thread hi
    rw [haffinity] at hi
    rcases eq_or_ne i o with rfl | hne
    · rw [update_self] at hi
      cases hi
    · rwa [update_of_ne hne] at hi
  refine h.of_movings hmovings hnext hleft ?_ ?_ ?_
  · intro l entry hentry
    have hne : entry.mReceiver ≠ o :=
      h.dying o (hdestroyed.mem_iff.mpr mem_cons_self) l entry (hqueue l hentry)
    rw [Housed, haffinity, update_of_ne hne, Awaiting, hmovings, hmig', ← hmig]
    exact h.entries l entry (hqueue l hentry)
  · intro i hi l entry hentry
    have hbefore : i ∈ s.destroyed := hdestroyed.mem_iff.mpr (mem_cons_of_mem _ hi)
    exact h.dying i hbefore l entry (hqueue l hentry)
  · intro target rest' hrest
    rw [hmig'] at hrest
    cases hrest

/-! ### Events -/

section

variable {l receiver : Nat} {type : EventType} {priority : Int}
  (henqueue : s.enqueueEvent l receiver type priority = some s')
include henqueue

theorem enqueueEvent_same : s'.objects = s.objects ∧ s'.frames = s.frames ∧
    s'.pending = s.pending ∧ s'.nextObject = s.nextObject := by
  unfold enqueueEvent at henqueue
  split at henqueue
  · split at henqueue <;> cases henqueue <;> exact ⟨rfl, rfl, rfl, rfl⟩
  · cases henqueue

/-- What is queued after the call was queued before, or is the new entry. -/
theorem mem_enqueueEvent {l' : Nat} {entry : EventEntry} (hentry : entry ∈ s'.queue l') :
    entry ∈ s.queue l' ∨ (l' = l ∧ entry.mReceiver = receiver) := by
  unfold enqueueEvent at henqueue
  split at henqueue
  next halive =>
    split at henqueue
    · cases henqueue
      exact .inl hentry
    · cases henqueue
      rw [queue_setQueue (s := { s with nextEvent := s.nextEvent + 1 }) halive] at hentry
      rcases eq_or_ne l' l with rfl | hne
      · rw [update_self, EventQueue.mem_insertEntry] at hentry
        rcases hentry with rfl | hentry
        · exact .inr ⟨rfl, rfl⟩
        · exact .inl hentry
      · rw [update_of_ne hne] at hentry
        exact .inl hentry
  · cases henqueue

theorem Located.enqueue (h : s.Located) (hliving : receiver ∉ s.destroyed)
    (hfound : s.objects receiver = some d) (hloop : d.mThread = some l ∨ d.mThread = none) :
    s'.Located := by
  obtain ⟨hobjects, hframes, hpending, hnext⟩ := enqueueEvent_same henqueue
  have haffinity := affinity_congr hobjects
  have hmovings : s'.movings = s.movings := by
    rw [movings, hframes, movings]
  have hmig : s'.migrating = s.migrating := by
    rw [migrating, hpending, migrating]
  refine h.of_movings hmovings hnext (by rw [haffinity]; exact fun _ _ hi => hi) ?_ ?_ ?_
  · intro l' entry hentry
    rw [Housed, haffinity, Awaiting, hmovings, hmig]
    rcases mem_enqueueEvent henqueue hentry with hold | ⟨rfl, rfl⟩
    · exact h.entries l' entry hold
    · exact ⟨d.mThread, affinity_of_found hfound, hloop.imp_right .inl⟩
  · intro o ho l' entry hentry
    rw [destroyed, hframes] at ho
    rcases mem_enqueueEvent henqueue hentry with hold | ⟨-, rfl⟩
    · exact h.dying o ho l' entry hold
    · exact fun heq => hliving (heq ▸ ho)
  · rw [hmig, haffinity]
    exact h.relinked

end

/-! ### Moving -/

/-- `c` is in the children list of `p`. -/
def Lists (s : State) (p c : Nat) : Prop := ∃ d, s.objects p = some d ∧ c ∈ d.mChildren

/-- `x` is in the subtree of `o`. -/
def Subtree (s : State) (o x : Nat) : Prop := Relation.ReflTransGen s.Lists o x

theorem mapM_recorded {children : List Nat}
    (h : (children.mapM fun c => (s.objects c).map fun child => (c, child.mThread)) = some moved) :
    ∀ x ∈ moved, x.1 ∈ children ∧ s.affinity x.1 = some x.2 := by
  induction children generalizing moved with
  | nil =>
    cases h
    intro x hx
    cases hx
  | cons c children ih =>
    simp only [List.mapM_cons, Option.pure_def, Option.bind_eq_bind, Option.bind_eq_some_iff,
      Option.map_eq_some_iff, Option.some.injEq] at h
    obtain ⟨y, ⟨child, hchild, rfl⟩, rest, hrest, rfl⟩ := h
    refine forall_mem_cons.mpr ⟨⟨mem_cons_self, affinity_of_found hchild⟩, fun x hx => ?_⟩
    exact ⟨mem_cons_of_mem _ (ih hrest x hx).1, (ih hrest x hx).2⟩

/-- Every collected object is in the subtree, and recorded with the loop it belongs to. -/
theorem collect_recorded {rounds root : Nat} {pending : List Nat}
    {result : List (Nat × Option Nat)} (hpending : ∀ x ∈ pending, s.Subtree root x)
    (hmoved : ∀ x ∈ moved, s.Subtree root x.1 ∧ s.affinity x.1 = some x.2)
    (h : s.collect rounds pending moved = some result) :
    ∀ x ∈ result, s.Subtree root x.1 ∧ s.affinity x.1 = some x.2 := by
  induction rounds generalizing pending moved with
  | zero =>
    cases pending with
    | nil =>
      cases h
      exact hmoved
    | cons o pending => cases h
  | succ rounds ih =>
    cases pending with
    | nil =>
      cases h
      exact hmoved
    | cons o pending =>
      simp only [collect] at h
      split at h
      · cases h
      next d hd =>
        have hchild : ∀ c ∈ d.mChildren, s.Subtree root c := fun c hc =>
          (hpending o mem_cons_self).tail ⟨d, hd, hc⟩
        split at h
        · cases h
        next children hchildren =>
          refine ih (forall_mem_append.mpr ⟨(forall_mem_cons.mp hpending).2, hchild⟩)
            (forall_mem_append.mpr ⟨hmoved, fun x hx => ?_⟩) h
          obtain ⟨hmem, haffinity⟩ := mapM_recorded hchildren x hx
          exact ⟨hchild x.1 hmem, haffinity⟩

theorem Moving.covers_iff : m.covers o = true ↔ ∃ x ∈ m.moved, x.1 = o := by
  simp only [Moving.covers, decide_eq_true_eq, List.mem_map]

/-- A `move_to_loop` starts, for objects no other one is moving. -/
theorem Located.moveToLoop (h : s.Located) (hmoved : ∀ x ∈ moved, s.affinity x.1 = some x.2)
    (hfree : ∀ x ∈ moved, ¬ s.InMove x.1) :
    (s.push t (.relink target moved (moved.map Prod.fst))).Located := by
  obtain ⟨m, hm⟩ : ∃ m : Moving, m = ⟨target, moved, moved.map Prod.fst⟩ := ⟨_, rfl⟩
  have hmovings : (s.push t (.relink target moved (moved.map Prod.fst))).movings =
      m :: s.movings := by
    rw [hm]
    rfl
  refine ⟨h.fresh, ?_, h.dying, forall_mem_cons.mpr
    ⟨⟨fun o hcovers thread hthread => ?_, fun o ho => decide_eq_true ho, fun o hcovers => ?_⟩,
      fun m hm => { h.moves m hm with }⟩, ?_, h.relinked⟩
  · intro l entry hentry
    obtain ⟨thread, hthread, hwhere⟩ := h.entries l entry hentry
    refine ⟨thread, hthread, hwhere.imp_right (Or.imp_right ?_)⟩
    rintro (⟨m', hm', hmem⟩ | hmig)
    · exact .inl ⟨m', hmovings ▸ mem_cons_of_mem _ hm', hmem⟩
    · exact .inr hmig
  · obtain ⟨x, hx, rfl⟩ := Moving.covers_iff.mp hcovers
    obtain rfl : thread = x.2 := Option.some.inj (hthread.symm.trans (hmoved x hx))
    exact .inr ⟨mem_map_of_mem hx, hx⟩
  · obtain ⟨x, hx, rfl⟩ := Moving.covers_iff.mp hcovers
    by_contra hge
    have hnone := h.fresh x.1 (Nat.le_of_not_lt hge)
    rw [hmoved x hx] at hnone
    cases hnone
  · rw [hmovings]
    intro o
    rw [countP_cons]
    split
    next hcovers =>
      obtain ⟨x, hx, rfl⟩ := Moving.covers_iff.mp hcovers
      subst hm
      have hzero : s.movings.countP (fun m => m.covers x.1) = 0 := by
        rw [countP_eq_zero]
        intro m' hm' hc
        exact hfree x hx ⟨m', hm', hc⟩
      exact Nat.le_of_eq (congrArg (· + 1) hzero)
    · exact h.once o

/-- What is known of a `move_to_loop` in the frame on top, and of the others. -/
theorem Located.alone {others : List Moving} (h : s.Located)
    (hperm : s.movings.Perm (m :: others)) (hcovers : m.covers o = true) :
    ∀ m' ∈ others, m'.covers o = false := by
  have hcount := h.once o
  rw [hperm.countP_eq, countP_cons, if_pos hcovers] at hcount
  have hzero : others.countP (fun m => m.covers o) = 0 := by omega
  intro m' hm'
  simpa using countP_eq_zero.mp hzero m' hm'

/-- Object `o` of a move in progress now belongs to the target. -/
structure Relinked (s u : State) (target : Option Nat) (moved : List (Nat × Option Nat)) (o : Nat)
    (rest : List Nat) (others : List Moving) : Prop where
  perm : s.movings.Perm (⟨target, moved, o :: rest⟩ :: others)
  movings : u.movings = ⟨target, moved, rest⟩ :: others
  affinity : u.affinity = update s.affinity o (some target)
  queue : u.queue = s.queue
  next : u.nextObject = s.nextObject
  idle : s.pending = .nothing
  idle' : u.pending = .nothing
  destroyed : u.destroyed = s.destroyed

theorem relinked_of_top (hidle : s.pending = .nothing)
    (htop : s.top t = some (.relink target moved (o :: rest))) (halive : s.alive o = true) :
    Relinked s (((s.pop t).modifyObject o fun d => { d with mThread := target }).push t
      (.relink target moved rest)) target moved o rest (s.pop t).movings where
  perm := movings_perm htop rfl
  movings := rfl
  affinity := by
    funext i
    change (update s.objects o ((s.objects o).map _) i).map _ = _
    rcases eq_or_ne i o with rfl | hne
    · obtain ⟨d, hd⟩ := isSome_iff_exists.mp halive
      rw [update_self, update_self, hd]
      rfl
    · rw [update_of_ne hne, update_of_ne hne]
      rfl
  queue := rfl
  next := rfl
  idle := hidle
  idle' := hidle
  destroyed := filterMap_pop htop rfl

namespace Relinked

variable {u : State} {others : List Moving}

section

variable (r : Relinked s u target moved o rest others)

include r

theorem mem_iff (m : Moving) : m ∈ s.movings ↔ m = ⟨target, moved, o :: rest⟩ ∨ m ∈ others := by
  rw [r.perm.mem_iff, mem_cons]

theorem current_mem : ⟨target, moved, o :: rest⟩ ∈ s.movings := (r.mem_iff _).mpr (.inl rfl)

theorem other_mem {m : Moving} (hm : m ∈ others) : m ∈ s.movings := (r.mem_iff m).mpr (.inr hm)

variable (h : s.Located)
include h

theorem covers : Moving.covers ⟨target, moved, o :: rest⟩ o = true :=
  (h.moves _ r.current_mem).covered o mem_cons_self

omit h in
theorem awaiting {i l : Nat} (h : s.Awaiting i l) : u.Awaiting i l := by
  rcases h with ⟨m, hm, hmoved⟩ | ⟨target', rest', hmig, -⟩
  · rcases (r.mem_iff m).mp hm with rfl | hm
    · exact .inl ⟨⟨target, moved, rest⟩, r.movings ▸ mem_cons_self, hmoved⟩
    · exact .inl ⟨m, r.movings ▸ mem_cons_of_mem _ hm, hmoved⟩
  · rw [migrating_of_idle r.idle] at hmig
    cases hmig

theorem fresh (i : Nat) (hi : u.nextObject ≤ i) : u.affinity i = none := by
  rw [r.next] at hi
  have hlt := (h.moves _ r.current_mem).known o (r.covers h)
  rw [r.affinity, update_of_ne (by omega)]
  exact h.fresh i hi

/-- Entries of the object on its old loop are among those to be moved. -/
theorem entries
    (hloose : s.affinity o = some none → ∀ l, ∀ entry ∈ s.queue l, entry.mReceiver = o →
      target = none ∨ target = some l) :
    ∀ l, ∀ entry ∈ u.queue l, u.Housed l entry.mReceiver := by
  rw [r.queue]
  intro l entry hentry
  rw [Housed, r.affinity]
  obtain ⟨thread, hthread, hwhere⟩ := h.entries l entry hentry
  rcases eq_or_ne entry.mReceiver o with hreceiver | hne
  · rw [hreceiver] at hthread hwhere ⊢
    refine ⟨target, update_self .., ?_⟩
    rcases hwhere with rfl | rfl | hwait
    · rcases (h.moves _ r.current_mem).relinking o (r.covers h) _ hthread with
        htarget | ⟨-, hrecorded⟩
      · exact .inl htarget.symm
      · exact .inr (.inr (r.awaiting (.inl ⟨_, r.current_mem, hrecorded⟩)))
    · exact (hloose hthread l entry hentry hreceiver).elim (fun hn => .inr (.inl hn)) .inl
    · exact .inr (.inr (r.awaiting hwait))
  · refine ⟨thread, (update_of_ne hne ..).trans hthread, ?_⟩
    exact hwhere.imp_right (Or.imp_right r.awaiting)

theorem moves : ∀ m ∈ u.movings, u.Moves m := by
  have hcurrent := h.moves _ r.current_mem
  rw [r.movings]
  refine forall_mem_cons.mpr ⟨⟨fun i hcovers thread hthread => ?_,
    fun i hi => hcurrent.covered i (mem_cons_of_mem _ hi),
    fun i hcovers => r.next ▸ hcurrent.known i hcovers⟩, fun m hm => ?_⟩
  · rw [r.affinity] at hthread
    rcases eq_or_ne i o with rfl | hne
    · rw [update_self] at hthread
      exact .inl (Option.some.inj hthread).symm
    · rw [update_of_ne hne] at hthread
      refine (hcurrent.relinking i hcovers thread hthread).imp_right ?_
      rintro ⟨hrest, hrecorded⟩
      exact ⟨(mem_cons.mp hrest).resolve_left hne, hrecorded⟩
  · refine (h.moves m (r.other_mem hm)).of_le (Nat.le_of_eq r.next.symm) ?_
    intro i hcovers thread hthread
    -- no other move covers the object
    have hne : i ≠ o := by
      rintro rfl
      rw [h.alone r.perm (r.covers h) m hm] at hcovers
      cases hcovers
    rwa [r.affinity, update_of_ne hne] at hthread

end

end Relinked

/-- The next object changes loops.  Entries it has on its old loop are still to be moved;
if it had no loop, its entries must be on the target already. -/
theorem Located.relink (h : s.Located) (hidle : s.pending = .nothing)
    (htop : s.top t = some (.relink target moved (o :: rest))) (halive : s.alive o = true)
    (hloose : s.affinity o = some none → ∀ l, ∀ entry ∈ s.queue l, entry.mReceiver = o →
      target = none ∨ target = some l) :
    (((s.pop t).modifyObject o fun d => { d with mThread := target }).push t
      (.relink target moved rest)).Located := by
  have r := relinked_of_top hidle htop halive
  refine ⟨r.fresh h, r.entries h hloose, ?_, r.moves h, ?_, ?_⟩
  · rw [r.destroyed, r.queue]
    exact h.dying
  · intro i
    have hcount := h.once i
    rw [r.perm.countP_eq] at hcount
    exact hcount
  · rw [migrating_of_idle r.idle']
    rintro _ _ ⟨⟩

/-- Every object is relinked: what the frame still had to move is now pending. -/
theorem Located.migrate (h : s.Located)
    (hidle : s.pending = .nothing) (htop : s.top t = some (.relink target moved [])) :
    { s.pop t with pending := .migrating target moved }.Located := by
  have hperm := movings_perm htop rfl
  have hmoves := forall_mem_cons.mp fun m hm => h.moves m (hperm.mem_iff.mpr hm)
  refine ⟨h.fresh, ?_, ?_, fun m hm => { hmoves.2 m hm with }, ?_, ?_⟩
  · intro l entry hentry
    obtain ⟨thread, hthread, hwhere⟩ := h.entries l entry hentry
    refine ⟨thread, hthread, hwhere.imp_right (Or.imp_right ?_)⟩
    rintro (⟨m, hm, hmoved⟩ | ⟨target', rest, hmig, -⟩)
    · rcases mem_cons.mp (hperm.mem_iff.mp hm) with rfl | hm
      · exact .inr ⟨target, moved, rfl, hmoved⟩
      · exact .inl ⟨m, hm, hmoved⟩
    · rw [migrating_of_idle hidle] at hmig
      cases hmig
  · have hdestroyed : (s.pop t).destroyed = s.destroyed := filterMap_pop htop rfl
    exact fun o ho => h.dying o (hdestroyed ▸ ho)
  · intro o
    have hcount := h.once o
    rw [hperm.countP_eq, countP_cons] at hcount
    exact Nat.le_trans (Nat.le_add_right ..) hcount
  · rintro target' rest hmig x hx thread hthread
    cases hmig
    have hcovers : Moving.covers ⟨target, moved, []⟩ x.1 = true :=
      Moving.covers_iff.mpr ⟨x, hx, rfl⟩
    rcases hmoves.1.relinking x.1 hcovers thread hthread with htarget | ⟨hnone, -⟩
    · exact htarget
    · cases hnone

variable {rest : List (Nat × Option Nat)} {old : Option Nat}

theorem migrating_migratingRest (h : s.pending = migratingRest target rest) :
    s.migrating = if rest = [] then none else some (target, rest) := by
  rw [migrating, h]
  cases rest <;> rfl

/-- The entries of one moved object are where they belong: those it had on its old loop are
gone from there, and any that came to a queue are its own, on the target's. -/
theorem Located.transferred
    (h : s.Located) (hpending : s.pending = .migrating target ((o, old) :: rest))
    (hpending' : s'.pending = migratingRest target rest) (hobjects : s'.objects = s.objects)
    (hframes : s'.frames = s.frames) (hnext : s'.nextObject = s.nextObject)
    (hqueue : ∀ l, ∀ entry ∈ s'.queue l,
      (entry ∈ s.queue l ∧ (entry.mReceiver = o → old = some l → target = some l)) ∨
        (target = some l ∧ entry.mReceiver = o ∧ ∃ l', entry ∈ s.queue l')) : s'.Located := by
  have haffinity := affinity_congr hobjects
  have hmovings : s'.movings = s.movings := by
    rw [movings, movings, hframes]
  have hmig : s.migrating = some (target, (o, old) :: rest) := by
    rw [migrating, hpending]
  have hmig' := migrating_migratingRest hpending'
  have htarget : ∀ thread, s.affinity o = some thread → thread = target :=
    h.relinked target _ hmig (o, old) mem_cons_self
  refine h.of_movings hmovings hnext (by rw [haffinity]; exact fun _ _ hi => hi) ?_ ?_ ?_
  · intro l entry hentry
    rw [Housed, haffinity]
    rcases hqueue l entry hentry with ⟨hbefore, hstays⟩ | ⟨hl, hreceiver, l', hbefore⟩
    · obtain ⟨thread, hthread, hwhere⟩ := h.entries l entry hbefore
      refine ⟨thread, hthread, ?_⟩
      rcases hwhere with hwhere | hwhere | (⟨m, hm, hmoved⟩ | ⟨target', rest', hmig'', hmoved⟩)
      · exact .inl hwhere
      · exact .inr (.inl hwhere)
      · exact .inr (.inr (.inl ⟨m, hmovings ▸ hm, hmoved⟩))
      · rw [hmig] at hmig''
        cases hmig''
        rcases mem_cons.mp hmoved with heq | hmoved
        · obtain ⟨hreceiver, hold⟩ := Prod.mk.inj heq
          left
          rw [htarget thread (hreceiver ▸ hthread)]
          exact hstays hreceiver hold.symm
        · refine .inr (.inr (.inr ⟨target, rest, ?_, hmoved⟩))
          rw [hmig', if_neg (ne_nil_of_mem hmoved)]
    · obtain ⟨thread, hthread, -⟩ := h.entries l' entry hbefore
      refine ⟨thread, hthread, .inl ?_⟩
      rw [htarget thread (hreceiver ▸ hthread)]
      exact hl
  · intro i hi l entry hentry
    rw [destroyed, hframes] at hi
    rcases hqueue l entry hentry with ⟨hbefore, -⟩ | ⟨-, -, l', hbefore⟩
    · exact h.dying i hi l entry hbefore
    · exact h.dying i hi l' entry hbefore
  · intro target' rest' hrest x hx
    rw [hmig'] at hrest
    split at hrest
    · cases hrest
    · cases hrest
      rw [haffinity]
      exact h.relinked target _ hmig x (mem_cons_of_mem _ hx)

theorem Located.transfer {entries : List EventEntry} {u : State} (h : s.Located)
    (hpending : s.pending = .migrating target ((o, old) :: rest))
    (htake : { s with pending := migratingRest target rest }.takeFrom o old = some (entries, u))
    (hgive : u.giveTo entries target = some s') : s'.Located := by
  -- what was taken, and what stayed
  have htaken : u.pending = migratingRest target rest ∧ u.objects = s.objects ∧
      u.frames = s.frames ∧ u.nextObject = s.nextObject ∧
      (∀ entry ∈ entries, entry.mReceiver = o ∧ ∃ l', entry ∈ s.queue l') ∧
      ∀ l, ∀ entry ∈ u.queue l, entry ∈ s.queue l ∧ (entry.mReceiver = o → old ≠ some l) := by
    cases old with
    | none =>
      cases htake
      refine ⟨rfl, rfl, rfl, rfl, nofun, ?_⟩
      intro l entry hentry
      exact ⟨hentry, fun _ => nofun⟩
    | some l =>
      obtain ⟨hloop, rfl, rfl⟩ := takeFrom_some htake
      refine ⟨rfl, rfl, rfl, rfl, ?_, ?_⟩
      · intro entry hentry
        obtain ⟨hmem, hreceiver⟩ := mem_filter.mp hentry
        exact ⟨of_decide_eq_true hreceiver, l, hmem⟩
      · intro l' entry hentry
        rw [queue_setQueue hloop] at hentry
        rcases eq_or_ne l' l with rfl | hne
        · rw [update_self, mem_filter] at hentry
          refine ⟨hentry.1, fun hreceiver => ?_⟩
          simp [hreceiver] at hentry
        · rw [update_of_ne hne] at hentry
          exact ⟨hentry, fun _ heq => hne (Option.some.inj heq).symm⟩
  obtain ⟨hp, ho, hf, hn, hentries, hstay⟩ := htaken
  cases target with
  | none =>
    cases hgive
    refine h.transferred hpending hp ho hf hn ?_
    intro l entry hentry
    obtain ⟨hmem, hne⟩ := hstay l entry hentry
    exact .inl ⟨hmem, fun hreceiver hold => absurd hold (hne hreceiver)⟩
  | some l =>
    obtain ⟨hloop, rfl⟩ := giveTo_some hgive
    refine h.transferred hpending hp ho hf hn ?_
    intro l' entry hentry
    rw [queue_setQueue hloop] at hentry
    rcases eq_or_ne l' l with rfl | hne
    · rw [update_self] at hentry
      rcases mem_append.mp hentry with hentry | hentry
      · exact .inl ⟨(hstay l' entry hentry).1, fun _ _ => rfl⟩
      · exact .inr ⟨rfl, hentries entry hentry⟩
    · rw [update_of_ne hne] at hentry
      obtain ⟨hmem, hold⟩ := hstay l' entry hentry
      exact .inl ⟨hmem, fun hreceiver heq => absurd heq (hold hreceiver)⟩

end State

end CxxKit.Kernel
