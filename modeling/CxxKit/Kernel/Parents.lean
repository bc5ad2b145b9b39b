import CxxKit.Kernel.Steps
import CxxKit.Lib.Forest

/-!
Parents and children.

`State.links` sees the objects as a forest linked both ways, and the operations of
`Object` as operations of the forest.  While `set_parent` is inside the `kChildRemoved`
handler of the old parent the object is in flux: no list has it, and its parent link is
stale.  `Linked` is the invariant, with one lemma for each operation.
-/

namespace CxxKit.Kernel

open Forest Function Links List Option

namespace State

def links (s : State) : Links Nat where
  parent o := (s.objects o).bind (·.mParent)
  children p := ((s.objects p).map (·.mChildren)).getD []

/-- `set_parent` of `o` is inside the `kChildRemoved` handler. -/
def InFlux (s : State) (o : Nat) : Prop := ∃ t parent, (t, Frame.setParent o parent) ∈ s.frames

structure Linked (s : State) : Prop where
  fresh : ∀ o, s.nextObject ≤ o → s.objects o = none
  settled : ∀ o, s.alive o = true → s.links.Exact o ∨ (s.InFlux o ∧ s.links.Loose o)
  listed : ∀ p, ∀ c ∈ s.links.children p, s.alive c = true
  known : ∀ o p, s.links.parent o = some p → p < s.nextObject
  flux : ∀ o, s.InFlux o → o < s.nextObject
  acyclic : s.links.Acyclic

variable {s s' : State} {t : ThreadId}

variable {o p : Nat} {d : ObjectPrivate} {parent : Option Nat}

theorem Linked.dead (h : s.Linked) (halive : ∀ o, s'.alive o = s.alive o)
    (ho : s.nextObject ≤ o) : s'.objects o = none := by
  have hdead := halive o
  rw [alive, alive, h.fresh o ho] at hdead
  simpa using hdead

theorem Linked.lt_of_alive (h : s.Linked) (ho : s.alive o = true) : o < s.nextObject := by
  by_contra hge
  rw [alive, h.fresh o (Nat.le_of_not_lt hge)] at ho
  cases ho

theorem Linked.of_same (h : s.Linked) (hlinks : s'.links = s.links)
    (halive : ∀ o, s'.alive o = s.alive o) (hflux : ∀ o, s'.InFlux o ↔ s.InFlux o)
    (hnext : s'.nextObject = s.nextObject) : s'.Linked := by
  refine ⟨?_, ?_, ?_, ?_, ?_, ?_⟩
  · intro o ho
    exact h.dead halive (hnext ▸ ho)
  · intro o ho
    rw [hlinks, hflux]
    exact h.settled o (halive o ▸ ho)
  · rw [hlinks]
    intro p c hc
    rw [halive]
    exact h.listed p c hc
  · rw [hlinks, hnext]
    exact h.known
  · intro o ho
    rw [hnext]
    exact h.flux o ((hflux o).mp ho)
  · rw [hlinks]
    exact h.acyclic

/-! ### Views -/

theorem links_congr (h : s'.objects = s.objects) : s'.links = s.links := by
  rw [links, links, h]

theorem alive_modifyObject (s : State) (o : Nat) (g : ObjectPrivate → ObjectPrivate) (i : Nat) :
    (s.modifyObject o g).alive i = s.alive i := by
  simp only [alive, modifyObject]
  rcases eq_or_ne i o with rfl | hne
  · rw [update_self, isSome_map]
  · rw [update_of_ne hne]

theorem links_update {d : Option ObjectPrivate} (h : s'.objects = update s.objects o d) :
    s'.links = ⟨update s.links.parent o (d.bind (·.mParent)),
      update s.links.children o ((d.map (·.mChildren)).getD [])⟩ := by
  simp only [links, h]
  congr 1
  all_goals
    funext i
    rcases eq_or_ne i o with rfl | hne
    · rw [update_self, update_self]
    · rw [update_of_ne hne, update_of_ne hne]

section

variable (h : s.objects o = some d)
include h

theorem parent_of_found : s.links.parent o = d.mParent := by
  simp [links, h]

theorem children_of_found : s.links.children o = d.mChildren := by
  simp [links, h]

/-- What becomes of the links when an object that is there is written to. -/
theorem links_modifyObject (g : ObjectPrivate → ObjectPrivate) :
    (s.modifyObject o g).links = ⟨update s.links.parent o (g d).mParent,
      update s.links.children o (g d).mChildren⟩ := by
  rw [links_update rfl, h]
  rfl

end

theorem links_setThread (h : s.alive o = true) (target : Option Nat) :
    (s.modifyObject o fun d => { d with mThread := target }).links = s.links := by
  obtain ⟨d, hd⟩ := isSome_iff_exists.mp h
  rw [links_modifyObject hd, ← parent_of_found hd, ← children_of_found hd]
  rw [update_eq_self, update_eq_self]

theorem links_unlink (h : s.alive o = true) :
    (s.modifyObject o fun d => { d with mParent := none }).links = s.links.unlink o := by
  obtain ⟨d, hd⟩ := isSome_iff_exists.mp h
  rw [links_modifyObject hd, ← children_of_found hd, update_eq_self]
  rfl

theorem links_detachChild (h : s.alive p = true) (o : Nat) :
    (s.detachChild p o).links = s.links.detach o p := by
  obtain ⟨d, hd⟩ := isSome_iff_exists.mp h
  rw [detachChild, links_modifyObject hd, ← parent_of_found hd, ← children_of_found hd,
    update_eq_self]
  rfl

theorem links_adopt (ho : s.alive o = true) (hp : s.alive p = true) :
    (s.adopt o (some p)).links = s.links.attach o p := by
  obtain ⟨d, hd⟩ := isSome_iff_exists.mp ho
  obtain ⟨u, hu⟩ : ∃ u, u = s.modifyObject o fun d => { d with mParent := some p } := ⟨_, rfl⟩
  have hlinks : u.links = ⟨update s.links.parent o (some p), s.links.children⟩ := by
    rw [hu, links_modifyObject hd, ← children_of_found hd, update_eq_self]
  have halive : u.alive p = true := by
    rw [hu, alive_modifyObject]
    exact hp
  obtain ⟨e, he⟩ := isSome_iff_exists.mp halive
  rw [adopt, ← hu, links_modifyObject he, ← parent_of_found he, ← children_of_found he,
    update_eq_self, hlinks]
  rfl

theorem links_create (h : s.objects s.nextObject = none) (t : ThreadId) :
    (s.create t).links = s.links := by
  have hparent : s.links.parent s.nextObject = none := by
    simp [links, h]
  have hchildren : s.links.children s.nextObject = [] := by
    simp [links, h]
  rw [links_update rfl]
  exact remove_eq_self hparent hchildren

theorem links_installLoop (s : State) (t : ThreadId) (o : Nat) :
    (s.installLoop t o).links = s.links.remove o := by
  rw [links_update rfl]
  rfl

theorem links_erase (s : State) (o : Nat) : (s.erase o).links = s.links.remove o := by
  rw [links_update rfl]
  rfl

theorem alive_create (t : ThreadId) (o : Nat) :
    (s.create t).alive o = (decide (o = s.nextObject) || s.alive o) := by
  simp only [alive, create]
  rcases eq_or_ne o s.nextObject with rfl | hne
  · simp
  · simp [hne]

theorem alive_installLoop (h : s.alive o = true) (i : Nat) :
    (s.installLoop t o).alive i = s.alive i := by
  rcases eq_or_ne i o with rfl | hne
  · rw [h]
    simp [alive, installLoop]
  · simp [alive, installLoop, update_of_ne hne]

theorem alive_adopt (s : State) (o : Nat) (parent : Option Nat) (i : Nat) :
    (s.adopt o parent).alive i = s.alive i := by
  cases parent with
  | none => rfl
  | some p => rw [adopt, alive_modifyObject, alive_modifyObject]

theorem inFlux_push {f : Frame} (h : ∀ o parent, f ≠ .setParent o parent) (o : Nat) :
    (s.push t f).InFlux o ↔ s.InFlux o := by
  constructor
  · rintro ⟨t', parent, hmem⟩
    rcases mem_cons.mp hmem with heq | hmem
    · exact absurd (Prod.mk.inj heq).2.symm (h o parent)
    · exact ⟨t', parent, hmem⟩
  · rintro ⟨t', parent, hmem⟩
    exact ⟨t', parent, mem_cons_of_mem _ hmem⟩

/-- Popping a frame settles at most the object of that frame. -/
theorem inFlux_pop {f : Frame} (htop : s.top t = some f)
    (h : ∀ parent, f ≠ .setParent o parent) : (s.pop t).InFlux o ↔ s.InFlux o := by
  obtain ⟨before, after, hframes, hpop⟩ := top_split htop
  unfold InFlux
  rw [hframes, hpop]
  constructor
  · rintro ⟨t', parent, hmem⟩
    refine ⟨t', parent, ?_⟩
    rw [mem_append, mem_cons]
    exact (mem_append.mp hmem).imp_right .inr
  · rintro ⟨t', parent, hmem⟩
    refine ⟨t', parent, ?_⟩
    rw [mem_append, mem_cons] at hmem
    rcases hmem with hmem | heq | hmem
    · exact mem_append_left _ hmem
    · exact absurd (Prod.mk.inj heq).2.symm (h parent)
    · exact mem_append_right _ hmem

/-- The cycle check: the way up from the new parent does not meet the object. -/
theorem climb_false {rounds : Nat} (h : s.climb o rounds (some p) = some false) :
    s.alive p = true ∧ ¬ Relation.ReflTransGen s.links.Up p o := by
  induction rounds generalizing p with
  | zero => cases h
  | succ rounds ih =>
    simp only [climb] at h
    split at h
    · cases h
    next hne =>
      split at h
      · cases h
      next d hd =>
        refine ⟨by rw [alive, hd]; rfl, ?_⟩
        intro hreach
        rcases hreach.cases_head with heq | ⟨q, hup, hrest⟩
        · exact hne heq
        · rw [Links.Up, parent_of_found hd] at hup
          rw [hup] at h
          exact (ih h).2 hrest

/-! ### Operations -/

variable (h : s.Linked)
include h

/-- Attaching an object that no list has. -/
theorem Linked.adopt (ho : s.alive o = true) (hparent : parent.all s.alive = true)
    (hloose : s.links.Loose o)
    (hbelow : ∀ p, parent = some p → ¬ Relation.ReflTransGen s.links.Up p o) :
    (s.adopt o parent).Linked := by
  cases parent with
  | none => exact h
  | some p =>
    have hp : s.alive p = true := hparent
    have hlinks := links_adopt ho hp
    refine ⟨?_, ?_, ?_, ?_, ?_, ?_⟩
    · intro i hi
      exact h.dead (alive_adopt s o (some p)) hi
    · intro i hi
      rw [alive_adopt] at hi
      rw [hlinks]
      rcases eq_or_ne i o with rfl | hne
      · exact .inl (attach_exact hloose p)
      · have hsame : Links.Same s.links (s.links.attach o p) i := attach_same hne p
        exact (h.settled i hi).imp hsame.exact (And.imp_right hsame.loose)
    · intro q c hc
      rw [hlinks] at hc
      rw [alive_adopt]
      rcases mem_attach hc with hc | rfl
      · exact h.listed q c hc
      · exact ho
    · intro i q hq
      rw [hlinks] at hq
      rcases attach_up hq with hold | ⟨-, rfl⟩
      · exact h.known i q hold
      · exact h.lt_of_alive hp
    · exact h.flux
    · rw [hlinks]
      exact h.acyclic.of_edge (fun _ _ => attach_up) (hbelow p rfl)

theorem Linked.create (t : ThreadId) : (s.create t).Linked := by
  have hnew := h.fresh s.nextObject (Nat.le_refl _)
  have hlinks := links_create hnew t
  refine ⟨?_, ?_, ?_, ?_, ?_, ?_⟩
  · intro o ho
    change s.nextObject + 1 ≤ o at ho
    change update s.objects s.nextObject _ o = none
    rw [update_of_ne (by omega)]
    exact h.fresh o (by omega)
  · intro o ho
    rw [hlinks]
    rcases eq_or_ne o s.nextObject with rfl | hne
    · -- nothing points to an object that was not there
      have hparent : s.links.parent s.nextObject = none := by
        simp [links, hnew]
      have hloose : s.links.Loose s.nextObject := by
        intro p hlisted
        have halive := h.listed p _ hlisted
        rw [alive, hnew] at halive
        cases halive
      exact .inl (hloose.exact hparent)
    · rw [alive_create] at ho
      exact h.settled o (by simpa [hne] using ho)
  · rw [hlinks]
    intro p c hc
    rw [alive_create, h.listed p c hc, Bool.or_true]
  · rw [hlinks]
    intro o p hp
    exact Nat.lt_succ_of_lt (h.known o p hp)
  · intro o ho
    exact Nat.lt_succ_of_lt (h.flux o ho)
  · rw [hlinks]
    exact h.acyclic

theorem Linked.construct (hparent : parent.all s.alive = true) (t : ThreadId) :
    ((s.create t).adopt s.nextObject parent).Linked := by
  have hnew := h.fresh s.nextObject (Nat.le_refl _)
  have hcreate := h.create t
  have halive : (s.create t).alive s.nextObject = true := by
    rw [alive_create]
    simp
  have hroot : (s.create t).links.parent s.nextObject = none := by
    rw [links_create hnew]
    simp [links, hnew]
  refine hcreate.adopt halive ?_ ?_ ?_
  · cases parent with
    | none => rfl
    | some p =>
      have hp : s.alive p = true := hparent
      change (s.create t).alive p = true
      rw [alive_create, hp, Bool.or_true]
  · rcases hcreate.settled _ halive with hexact | ⟨-, hloose⟩
    · exact hexact.loose_of_root hroot
    · exact hloose
  · rintro p rfl hreach
    have hp : s.alive p = true := hparent
    rw [links_create hnew] at hreach
    rcases hreach.cases_tail with heq | ⟨q, -, hup⟩
    · rw [← heq, alive, hnew] at hp
      cases hp
    · exact absurd (h.known q _ hup) (Nat.lt_irrefl _)

omit h in
theorem alive_detachChild (s : State) (p o i : Nat) : (s.detachChild p o).alive i = s.alive i :=
  alive_modifyObject s p _ i

/-- The old parent forgets the object; until the handler returns the object is in flux. -/
theorem Linked.leaveParent {old : Nat} (ho : s.alive o = true)
    (hparent : s.links.parent o = some old) (hold : s.alive old = true) :
    ((s.detachChild old o).push t (.setParent o parent)).Linked := by
  obtain ⟨u, hu⟩ : ∃ u, u = (s.detachChild old o).push t (.setParent o parent) := ⟨_, rfl⟩
  rw [← hu]
  have hlinks : u.links = s.links.detach o old := by
    rw [hu]
    exact links_detachChild hold o
  have halive : ∀ i, u.alive i = s.alive i := by
    intro i
    rw [hu]
    exact alive_detachChild s old o i
  have hnext : u.nextObject = s.nextObject := by
    rw [hu]
    rfl
  have hflux : ∀ i, u.InFlux i ↔ i = o ∨ s.InFlux i := by
    intro i
    rw [hu]
    constructor
    · rintro ⟨t', parent', hmem⟩
      rcases mem_cons.mp hmem with heq | hmem
      · exact .inl (Frame.setParent.inj (Prod.mk.inj heq).2).1
      · exact .inr ⟨t', parent', hmem⟩
    · rintro (rfl | ⟨t', parent', hmem⟩)
      · exact ⟨t, parent, mem_cons_self⟩
      · exact ⟨t', parent', mem_cons_of_mem _ hmem⟩
  refine ⟨?_, ?_, ?_, ?_, ?_, ?_⟩
  · intro i hi
    exact h.dead halive (hnext ▸ hi)
  · intro i hi
    rw [halive] at hi
    rw [hlinks, hflux]
    rcases eq_or_ne i o with rfl | hne
    · refine .inr ⟨.inl rfl, ?_⟩
      rcases h.settled i ho with hexact | ⟨-, hloose⟩
      · exact hexact.detach hparent
      · exact hloose.detach old
    · have hsame : Links.Same s.links (s.links.detach o old) i := detach_same hne old
      exact (h.settled i hi).imp hsame.exact (And.imp .inr hsame.loose)
  · rw [hlinks]
    intro p c hc
    rw [halive]
    exact h.listed p c (mem_detach.mp hc).1
  · rw [hlinks, hnext]
    exact h.known
  · intro i hi
    rw [hnext]
    rcases (hflux i).mp hi with rfl | hi
    · exact h.lt_of_alive ho
    · exact h.flux i hi
  · rw [hlinks]
    exact h.acyclic.mono fun _ _ hup => hup

/-- The handler has returned: the object, which no list has, forgets its old parent. -/
theorem Linked.unlink (htop : s.top t = some (.setParent o parent)) (ho : s.alive o = true)
    (hloose : s.links.Loose o) :
    ((s.pop t).modifyObject o fun d => { d with mParent := none }).Linked := by
  obtain ⟨u, hu⟩ : ∃ u, u = (s.pop t).modifyObject o fun d => { d with mParent := none } :=
    ⟨_, rfl⟩
  rw [← hu]
  have hlinks : u.links = s.links.unlink o := by
    rw [hu]
    exact links_unlink ho
  have halive : ∀ i, u.alive i = s.alive i := by
    intro i
    rw [hu]
    exact alive_modifyObject (s.pop t) o _ i
  have hnext : u.nextObject = s.nextObject := by
    rw [hu]
    rfl
  have hflux : ∀ i, u.InFlux i → s.InFlux i := by
    rw [hu]
    rintro i ⟨t', parent', hmem⟩
    exact ⟨t', parent', mem_pop hmem⟩
  refine ⟨?_, ?_, ?_, ?_, ?_, ?_⟩
  · intro i hi
    exact h.dead halive (hnext ▸ hi)
  · intro i hi
    rw [halive] at hi
    rw [hlinks]
    rcases eq_or_ne i o with rfl | hne
    · exact .inl hloose.unlink
    · have hsame : Links.Same s.links (s.links.unlink o) i := unlink_same hne
      have hstill : u.InFlux i ↔ s.InFlux i := by
        rw [hu]
        refine inFlux_pop htop ?_
        rintro parent' heq
        exact hne (Frame.setParent.inj heq).1.symm
      rw [hstill]
      exact (h.settled i hi).imp hsame.exact (And.imp_right hsame.loose)
  · rw [hlinks]
    intro p c hc
    rw [halive]
    exact h.listed p c hc
  · rw [hlinks, hnext]
    intro i p hp
    exact h.known i p (unlink_up hp).2
  · intro i hi
    rw [hnext]
    exact h.flux i (hflux i hi)
  · rw [hlinks]
    exact h.acyclic.mono fun _ _ hup => (unlink_up hup).2

/-- The memory of `o` is released in a state `u` that differs from `s` in the links of `o`
only: it has no children and no list has it. -/
theorem Linked.erase {u : State} (halive : ∀ i, u.alive i = s.alive i)
    (hframes : u.frames = s.frames) (hnext : u.nextObject = s.nextObject)
    (hsame : ∀ i, i ≠ o → Links.Same s.links u.links i)
    (hsub : ∀ p, ∀ c ∈ u.links.children p, c ∈ s.links.children p)
    (hchildren : u.links.children o = []) (hloose : u.links.Loose o) : (u.erase o).Linked := by
  have hlinks : (u.erase o).links = u.links.unlink o := by
    rw [links_erase, remove_eq_unlink hchildren]
  have hother : ∀ i, i ≠ o → (u.erase o).alive i = s.alive i := by
    intro i hne
    rw [← halive]
    simp [alive, State.erase, update_of_ne hne]
  have hgone : (u.erase o).objects o = none := update_self ..
  have hflux : ∀ i, (u.erase o).InFlux i ↔ s.InFlux i := by
    intro i
    change (∃ t parent, (t, Frame.setParent i parent) ∈ u.frames) ↔ _
    rw [hframes]
    exact Iff.rfl
  have hup : ∀ x y, (u.links.unlink o).Up x y → s.links.Up x y := by
    intro x y hxy
    obtain ⟨hne, hold⟩ := unlink_up hxy
    exact (hsame x hne).parent.symm.trans hold
  refine ⟨?_, ?_, ?_, ?_, ?_, ?_⟩
  · intro i hi
    rcases eq_or_ne i o with rfl | hne
    · exact hgone
    · exact (update_of_ne hne ..).trans (h.dead halive (hnext ▸ hi))
  · intro i hi
    have hne : i ≠ o := by
      rintro rfl
      rw [alive, hgone] at hi
      cases hi
    rw [hother i hne] at hi
    rw [hlinks, hflux]
    have hunlink : Links.Same u.links (u.links.unlink o) i := unlink_same hne
    refine (h.settled i hi).imp ?_ (And.imp_right ?_)
    · exact fun hexact => hunlink.exact ((hsame i hne).exact hexact)
    · exact fun hl => hunlink.loose ((hsame i hne).loose hl)
  · rw [hlinks]
    intro p c hc
    have hne : c ≠ o := by
      rintro rfl
      exact hloose p hc
    rw [hother c hne]
    exact h.listed p c (hsub p c hc)
  · rw [hlinks]
    intro i p hp
    exact lt_of_lt_of_eq (h.known i p (hup i p hp)) hnext.symm
  · intro i hi
    exact lt_of_lt_of_eq (h.flux i ((hflux i).mp hi)) hnext.symm
  · rw [hlinks]
    exact h.acyclic.mono hup

theorem Linked.release (hfound : s.objects o = some d) (hchildren : d.mChildren = [])
    (hparent : d.mParent.all s.alive = true) : (s.release o d.mParent).Linked := by
  have halive : s.alive o = true := by
    rw [alive, hfound]
    rfl
  have hnone : s.links.children o = [] := (children_of_found hfound).trans hchildren
  have hlink := parent_of_found hfound
  generalize d.mParent = parent at hparent hlink
  cases parent with
  | none =>
    refine h.erase (fun _ => rfl) rfl rfl (fun _ _ => ⟨rfl, fun _ => rfl⟩) (fun _ _ hc => hc)
      hnone ?_
    rcases h.settled o halive with hexact | ⟨-, hloose⟩
    · exact hexact.loose_of_root hlink
    · exact hloose
  | some p =>
    have hlinks := links_detachChild hparent o
    refine h.erase (alive_detachChild s p o) rfl rfl ?_ ?_ ?_ ?_
    · intro i hne
      rw [hlinks]
      exact detach_same hne p
    · intro q c hc
      rw [hlinks] at hc
      exact (mem_detach.mp hc).1
    · rw [hlinks, eq_nil_iff_forall_not_mem]
      intro c hc
      have hlisted := (mem_detach.mp hc).1
      rw [hnone] at hlisted
      cases hlisted
    · rw [hlinks]
      rcases h.settled o halive with hexact | ⟨-, hloose⟩
      · exact hexact.detach hlink
      · exact hloose.detach p

end State

end CxxKit.Kernel
