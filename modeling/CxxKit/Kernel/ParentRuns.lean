import CxxKit.Kernel.Parents

/-!
Parents and children over whole runs.

`Orderly` says what a step must respect, and `parents_and_children` is the result: apart
from objects in flux, exactly the parent of an object lists it, once, and no way up is a
cycle.
-/

namespace CxxKit.Kernel

open Forest State Transition

/-- What a step must respect. -/
structure Orderly (s : State) (a : ThreadId × Action) : Prop where
  /-- A loop whose constructor ends has no parent and no children. -/
  construct : ∀ o, a.2 = .constructed → s.top a.1 = some (.construct o) →
    s.links.parent o = none ∧ s.links.children o = []
  /-- When the `kChildRemoved` handler returns, the object has not been given to a parent
  by the handler, and the new parent is not the object or below it. -/
  reparent : ∀ o parent, a.2 = .childRemoved → s.top a.1 = some (.setParent o parent) →
    (∀ q, s.links.parent o = some q → o ∉ s.links.children q) ∧
      ∀ p, parent = some p → ¬ Relation.ReflTransGen s.links.Up p o

/-- Apart from objects in flux, exactly the parent of an object lists it, once; and no way
up is a cycle. -/
def Inverse (s : State) : Prop :=
  (∀ o, s.alive o = true → ¬ s.InFlux o → s.links.Exact o) ∧ s.links.Acyclic

namespace State

variable {s s' : State} {t : ThreadId}

theorem Linked.inverse (h : s.Linked) : Inverse s := by
  refine ⟨?_, h.acyclic⟩
  intro o ho hflux
  exact (h.settled o ho).resolve_right fun hin => hflux hin.1

theorem linked_init : init.Linked where
  fresh _ _ := rfl
  settled _ ho := by cases ho
  listed _ _ hc := by cases hc
  known _ _ hp := by cases hp
  flux _ ho := by
    obtain ⟨t, parent, hmem⟩ := ho
    cases hmem
  acyclic a ha := by
    obtain ⟨b, hb, -⟩ := Relation.TransGen.head'_iff.mp ha
    cases hb

section

variable (h : s.Linked) {parent : Option Nat} {o : Nat} {f : Frame}

include h

/-- Steps that leave the objects alone. -/
theorem Linked.of_objects (hobjects : s'.objects = s.objects)
    (hflux : ∀ o, s'.InFlux o ↔ s.InFlux o) (hnext : s'.nextObject = s.nextObject) :
    s'.Linked := by
  refine h.of_same (links_congr hobjects) ?_ hflux hnext
  intro o
  rw [alive, alive, hobjects]

theorem Linked.push (hf : ∀ o parent, f ≠ .setParent o parent) : (s.push t f).Linked :=
  h.of_objects rfl (inFlux_push hf) rfl

theorem Linked.pop (htop : s.top t = some f) (hf : ∀ o parent, f ≠ .setParent o parent) :
    (s.pop t).Linked :=
  h.of_objects rfl (fun o => inFlux_pop htop (hf o)) rfl

theorem Linked.deletes (hdelete : s.delete t o = some s') : s'.Linked := by
  obtain ⟨d, hdel⟩ := delete_deletes hdelete
  refine h.of_objects hdel.objects ?_ hdel.nextObject
  intro i
  rw [InFlux, hdel.frames]
  exact inFlux_push (by rintro _ _ ⟨⟩) i

theorem Linked.enqueue {l receiver : Nat} {type : EventType} {priority : Int}
    (henqueue : s.enqueueEvent l receiver type priority = some s') : s'.Linked := by
  unfold enqueueEvent at henqueue
  split at henqueue
  · split at henqueue <;> cases henqueue <;> exact h.of_objects rfl (fun _ => .rfl) rfl
  · cases henqueue

theorem Linked.transfer {target old : Option Nat} {rest : List (Nat × Option Nat)}
    {entries : List EventEntry} {u : State}
    (htake : { s with pending := migratingRest target rest }.takeFrom o old = some (entries, u))
    (hgive : u.giveTo entries target = some s') : s'.Linked := by
  have hu : u.Linked := by
    cases old with
    | none =>
      cases htake
      exact h.of_objects rfl (fun _ => .rfl) rfl
    | some l =>
      obtain ⟨-, -, rfl⟩ := takeFrom_some htake
      exact h.of_objects rfl (fun _ => .rfl) rfl
  cases target with
  | none =>
    cases hgive
    exact hu.of_objects rfl (fun _ => .rfl) rfl
  | some l =>
    obtain ⟨-, rfl⟩ := giveTo_some hgive
    exact hu.of_objects rfl (fun _ => .rfl) rfl

/-- A loop without a parent replaces the object it is made of. -/
theorem Linked.newLoop (t : ThreadId) : ((s.create t).installLoop t s.nextObject).Linked := by
  refine (h.create t).of_same ?_ ?_ (fun _ => .rfl) rfl
  · rw [links_installLoop]
    have hnew := h.fresh s.nextObject (Nat.le_refl _)
    have hlinks := links_create hnew t
    refine Links.remove_eq_self ?_ ?_ <;> rw [hlinks] <;> simp [links, hnew]
  · intro o
    refine alive_installLoop ?_ o
    rw [alive_create]
    simp

/-- `set_parent` of an object that has no parent. -/
theorem Linked.firstParent {o rounds : Nat} {d : ObjectPrivate} (hfound : s.objects o = some d)
    (hroot : d.mParent = none) (hclimb : s.climb o rounds parent = some false) :
    (s.adopt o parent).Linked := by
  have ho : s.alive o = true := by
    rw [alive, hfound]
    rfl
  have hnone : s.links.parent o = none := (parent_of_found hfound).trans hroot
  refine h.adopt ho ?_ ?_ ?_
  · cases parent with
    | none => rfl
    | some p => exact (climb_false hclimb).1
  · rcases h.settled o ho with hexact | ⟨-, hloose⟩
    · exact hexact.loose_of_root hnone
    · exact hloose
  · rintro p rfl
    exact (climb_false hclimb).2

/-- The second half of `set_parent`, after the old parent has been told. -/
theorem Linked.childRemoved (htop : s.top t = some (.setParent o parent))
    (halive : s.alive o = true) (hparent : parent.all s.alive = true)
    (hunlisted : ∀ q, s.links.parent o = some q → o ∉ s.links.children q)
    (hbelow : ∀ p, parent = some p → ¬ Relation.ReflTransGen s.links.Up p o) :
    (((s.pop t).modifyObject o fun d => { d with mParent := none }).adopt o parent).Linked := by
  have hloose : s.links.Loose o := by
    rcases h.settled o halive with hexact | ⟨-, hloose⟩
    · exact hexact.loose hunlisted
    · exact hloose
  obtain ⟨u, hu⟩ : ∃ u, u = (s.pop t).modifyObject o fun d => { d with mParent := none } :=
    ⟨_, rfl⟩
  have hlinks : u.links = s.links.unlink o := by
    rw [hu]
    exact links_unlink halive
  have hkeeps : ∀ i, u.alive i = s.alive i := by
    intro i
    rw [hu]
    exact alive_modifyObject (s.pop t) o _ i
  have hlinked : u.Linked := hu ▸ h.unlink htop halive hloose
  rw [← hu]
  refine hlinked.adopt ((hkeeps o).trans halive) ?_ (hlinks ▸ hloose) ?_
  · cases parent with
    | none => rfl
    | some p => exact (hkeeps p).trans hparent
  · intro p hp hreach
    rw [hlinks] at hreach
    refine hbelow p hp (Relation.ReflTransGen.mono ?_ _ _ hreach)
    exact fun _ _ hup => (Links.unlink_up hup).2

theorem step_linked {a : ThreadId × Action} (horderly : Orderly s a)
    (hstep : s.step a = some s') : s'.Linked := by
  obtain ⟨t, a⟩ := a
  obtain ⟨heffect, -⟩ := step_effect hstep
  cases heffect with
  | stay => exact h
  | newObject hparent => exact h.construct hparent t
  | newLoop => exact h.newLoop t
  | @newChildLoop p hp =>
    have hparent : (some p).all s.alive = true := hp
    exact (h.construct hparent t).push (by rintro _ _ ⟨⟩)
  | constructed htop halive =>
    obtain ⟨hparent, hchildren⟩ := horderly.construct _ rfl htop
    refine (h.pop htop (by rintro _ _ ⟨⟩)).of_same ?_ ?_ (fun _ => .rfl) rfl
    · rw [links_installLoop]
      exact Links.remove_eq_self hparent hchildren
    · intro i
      exact alive_installLoop halive i
  | firstParent hfound hroot hclimb => exact h.firstParent hfound hroot hclimb
  | leaveParent hfound hparent _ hold =>
    refine h.leaveParent ?_ ((parent_of_found hfound).trans hparent) hold
    rw [alive, hfound]
    rfl
  | childRemoved htop halive hparent =>
    obtain ⟨hunlisted, hbelow⟩ := horderly.reparent _ _ rfl htop
    exact h.childRemoved htop halive hparent hunlisted hbelow
  | destroy hdelete => exact h.deletes hdelete
  | deleteThis _ _ hdelete | cascadeChild _ _ _ hdelete => exact h.deletes hdelete
  | cascadeEnd htop hfound hchildren hparent =>
    exact (h.pop htop (by rintro _ _ ⟨⟩)).release hfound hchildren hparent
  | enqueue _ _ _ henqueue => exact h.enqueue henqueue
  | removePendingEvents hsweep =>
    obtain ⟨d, -, hp⟩ := sweep_purged hsweep
    refine h.of_objects hp.objects ?_ hp.nextObject
    intro i
    rw [InFlux, InFlux, hp.frames]
  | moveToLoop | processEvents => exact h.push (by rintro _ _ ⟨⟩)
  | relink htop halive =>
    refine Linked.push ?_ (by rintro _ _ ⟨⟩)
    refine (h.pop htop (by rintro _ _ ⟨⟩)).of_same ?_ (alive_modifyObject _ _ _)
      (fun _ => .rfl) rfl
    exact links_setThread halive _
  | migrate htop => exact (h.pop htop (by rintro _ _ ⟨⟩)).of_objects rfl (fun _ => .rfl) rfl
  | transferNone | exit => exact h.of_objects rfl (fun _ => .rfl) rfl
  | transfer _ _ htake hgive => exact h.transfer htake hgive
  | @dispatch l entry queue intercepted _ _ _ =>
    have hqueue : (s.setQueue l queue).Linked := h.of_objects rfl (fun _ => .rfl) rfl
    have hpushed := hqueue.push (t := t) (f := .dispatch entry) (by rintro _ _ ⟨⟩)
    exact hpushed.of_objects rfl (fun _ => .rfl) rfl
  | finishDispatch htop => exact (h.pop htop (by rintro _ _ ⟨⟩)).of_objects rfl (fun _ => .rfl) rfl
  | endProcess htop => exact h.pop htop (by rintro _ _ ⟨⟩)
  | @exec l =>
    have hpushed := h.push (t := t) (f := .exec l (s.current t)) (by rintro _ _ ⟨⟩)
    exact hpushed.of_objects rfl (fun _ => .rfl) rfl
  | endExec htop => exact (h.pop htop (by rintro _ _ ⟨⟩)).of_objects rfl (fun _ => .rfl) rfl

end

end State

/-- **Parents and children**, in every state of a run whose steps are all orderly. Only while
`set_parent` waits for the `kChildRemoved` handler are the two not inverse, and that object is then
on the stack. -/
theorem parents_and_children (run : List (ThreadId × Action))
    (h : machine.Meets Orderly init run) : machine.Always Inverse init run := by
  have hlinked : machine.Always State.Linked init run := by
    refine Machine.always_of_meets ?_ linked_init h
    exact fun s a s' hlinked horderly hstep => step_linked hlinked horderly hstep
  exact hlinked.mono fun s h => h.inverse

theorem Orderly.of_plain {s : State} {t : ThreadId} {a : Action} (hconstructed : a ≠ .constructed)
    (hremoved : a ≠ .childRemoved) : Orderly s (t, a) where
  construct _ h := absurd h hconstructed
  reparent _ _ h := absurd h hremoved

/-- A child changes parents and is destroyed with the second one. -/
def adoptionRun : List (ThreadId × Action) :=
  [.newObject none, .newObject (some 0), .newLoop none, .setParent 1 (some 2) 1, .childRemoved,
    .destroy 2, .cascade, .cascade, .cascade].map fun a => (0, a)

theorem parents_and_children_adoption : (machine.run init adoptionRun).isSome = true ∧
      machine.Always Inverse init adoptionRun := by
  refine ⟨rfl, parents_and_children adoptionRun ?_⟩
  rintro s₁ ⟨⟩
  refine ⟨.of_plain nofun nofun, ?_⟩
  rintro s₂ ⟨⟩
  refine ⟨.of_plain nofun nofun, ?_⟩
  rintro s₃ ⟨⟩
  refine ⟨.of_plain nofun nofun, ?_⟩
  rintro s₄ ⟨⟩
  refine ⟨.of_plain nofun nofun, ?_⟩
  rintro s₅ ⟨⟩
  refine ⟨⟨nofun, ?_⟩, ?_⟩
  · -- the first parent has forgotten the child, and the second has no parent
    rintro o parent - ⟨⟩
    refine ⟨?_, ?_⟩
    · rintro q ⟨⟩ hmem
      cases hmem
    · rintro p ⟨⟩ hreach
      rcases hreach.cases_head with heq | ⟨q, hup, -⟩
      · cases heq
      · cases hup
  rintro s₆ ⟨⟩
  refine ⟨.of_plain nofun nofun, ?_⟩
  rintro s₇ ⟨⟩
  refine ⟨.of_plain nofun nofun, ?_⟩
  rintro s₈ ⟨⟩
  refine ⟨.of_plain nofun nofun, ?_⟩
  rintro s₉ ⟨⟩
  exact ⟨.of_plain nofun nofun, trivial⟩

/-- An event loop is constructed with a parent. -/
def orphanRun : List (ThreadId × Action) :=
  [.newObject none, .newLoop (some 0), .constructed].map fun a => (0, a)

/-- The constructor of `EventLoop` forgets the parent that lists the loop. -/
theorem loop_forgets_parent : ∃ s, machine.run init orphanRun = some s ∧ ¬ Inverse s := by
  refine ⟨_, rfl, ?_⟩
  intro h
  have hcount := h.1 1 rfl (by rintro ⟨t, parent, hmem⟩; cases hmem) 0
  exact absurd hcount (by decide)

end CxxKit.Kernel
