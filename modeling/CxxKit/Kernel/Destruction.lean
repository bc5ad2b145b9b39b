import CxxKit.Lib.Subtrees
import CxxKit.Lib.While

/-!
Destroying and moving objects in a forest (`~Object`, `Object::set_parent`).

Only what the two do to the parent and child links is modelled; the objects are plain, so no
handler runs in between.  An object that is not alive any more has no links, and following a
pointer to it is undefined.  `destroyed` records the objects in the order in which their
destructors ended.
-/

namespace CxxKit.Destruction

open Forest Function Links List While

structure Heap where
  alive : List Nat
  links : Links Nat
  destroyed : List Nat

namespace Heap

/-- The end of `~Object`: the parent detaches the object, and its memory is released. -/
def release (h : Heap) (o : Nat) : Option Heap :=
  if o ∈ h.alive ∧ (h.links.parent o).all (· ∈ h.alive) then
    some ⟨h.alive.filter (· ≠ o), (h.links.orphan o).remove o, h.destroyed ++ [o]⟩
  else none

/-- `~Object`: `while (!d->mChildren.empty()) delete d->mChildren.front()`, then the parent.
The fuel bounds the depth of the recursion and the rounds of every loop. -/
def destroy : Nat → Nat → Heap → Option Heap
  | 0, _, _ => none
  | fuel + 1, o, h =>
    if o ∈ h.alive then
      match loop (fun u : Heap => (u.links.children o).head?)
        (fun c u => destroy fuel c u) (fuel + 1) h with
      | none => none
      | some u => u.release o
    else none

/-- More fuel does not change what a destruction does. -/
theorem destroy_mono {fuel fuel' o : Nat} {h t : Heap} (hle : fuel ≤ fuel')
    (hrun : destroy fuel o h = some t) : destroy fuel' o h = some t := by
  induction fuel generalizing fuel' o h t with
  | zero => cases hrun
  | succ fuel ih =>
    cases fuel' with
    | zero => omega
    | succ fuel' =>
      unfold destroy at hrun ⊢
      split at hrun
      next ho =>
        rw [if_pos ho]
        split at hrun
        · cases hrun
        next u hloop =>
          have hbody : ∀ c v w, destroy fuel c v = some w → destroy fuel' c v = some w :=
            fun c v w => ih (Nat.le_of_succ_le_succ hle)
          rw [loop_mono hbody hle hloop]
          exact hrun
      · cases hrun

/-! ### What a destruction does -/

/-- The subtree of `o` is gone, each object of it was destroyed once and nothing else was, and
what remains is a forest in which only the parent of `o` has lost a child. -/
structure Destroys (h t : Heap) (o : Nat) : Prop where
  grown : t.links.Grown t.alive
  alive : ∀ x, x ∈ t.alive ↔ x ∈ h.alive ∧ ¬ h.links.Below x o
  parent : ∀ x ∈ t.alive, t.links.parent x = h.links.parent x
  children : ∀ x ∈ t.alive, t.links.children x = (h.links.children x).filter (· ≠ o)
  destroyed : ∃ l, t.destroyed = h.destroyed ++ l ∧ l.Nodup ∧
    ∀ x, x ∈ l ↔ x ∈ h.alive ∧ h.links.Below x o

/-- Inside the loop of `~Object`: the children in `gone` have been destroyed. -/
structure Cascade (h u : Heap) (o : Nat) (gone : List Nat) : Prop where
  split : h.links.children o = gone ++ u.links.children o
  grown : u.links.Grown u.alive
  alive : ∀ x, x ∈ u.alive ↔ x ∈ h.alive ∧ ¬ ∃ c ∈ gone, h.links.Below x c
  parent : ∀ x ∈ u.alive, u.links.parent x = h.links.parent x
  children : ∀ x ∈ u.alive, x ≠ o → u.links.children x = h.links.children x
  destroyed : ∃ l, u.destroyed = h.destroyed ++ l ∧ l.Nodup ∧
    ∀ x, x ∈ l ↔ x ∈ h.alive ∧ ∃ c ∈ gone, h.links.Below x c

variable {h t u v : Heap} {o c : Nat} {gone : List Nat}

theorem cascade_start (hgrown : h.links.Grown h.alive) (o : Nat) : Cascade h h o [] where
  split := rfl
  grown := hgrown
  alive := by simp
  parent _ _ := rfl
  children _ _ _ := rfl
  destroyed := ⟨[], by simp⟩

section

variable (hcascade : Cascade h u o gone)
include hcascade

theorem Cascade.below_iff {x a : Nat} (hx : x ∈ u.alive) : u.links.Below x a ↔ h.links.Below x a :=
  hcascade.grown.below_congr hcascade.parent hx

/-- The object itself is not in the subtree of a child of it. -/
theorem Cascade.root_alive (hgrown : h.links.Grown h.alive) (ho : o ∈ h.alive) : o ∈ u.alive := by
  refine (hcascade.alive o).mpr ⟨ho, ?_⟩
  rintro ⟨c, hc, hbelow⟩
  have hchild : c ∈ h.links.children o := by
    rw [hcascade.split]
    exact mem_append_left _ hc
  exact hgrown.not_below_child hchild hbelow

/-- The subtree of the next child is smaller than the one of the object. -/
theorem Cascade.population_lt (hgrown : h.links.Grown h.alive) (ho : o ∈ h.alive)
    (hc : c ∈ u.links.children o) :
    u.links.population u.alive c < h.links.population h.alive o := by
  have hchild : c ∈ h.links.children o := by
    rw [hcascade.split]
    exact mem_append_right _ hc
  refine Links.population_lt hcascade.grown.nodup ?_ ho ?_
  · intro x hx hbelow
    have hxh := ((hcascade.alive x).mp hx).1
    exact ⟨hxh, (hgrown.below_iff hxh).mpr (.inr ⟨c, hchild, (hcascade.below_iff hx).mp hbelow⟩)⟩
  · exact hcascade.grown.not_below_child hc

end

theorem exists_gone_concat {x : Nat} : (∃ b ∈ gone ++ [c], h.links.Below x b) ↔
    (∃ b ∈ gone, h.links.Below x b) ∨ h.links.Below x c := by
  simp only [mem_append, mem_singleton, or_and_right, exists_or, exists_eq_left]

section

variable (hcascade : Cascade h u o gone)

include hcascade

theorem Cascade.alive_round (hdestroys : Destroys u v c)
    (x : Nat) : x ∈ v.alive ↔ x ∈ h.alive ∧ ¬ ∃ b ∈ gone ++ [c], h.links.Below x b := by
  rw [hdestroys.alive, exists_gone_concat, not_or]
  constructor
  · rintro ⟨hx, hnot⟩
    obtain ⟨hxh, hgone⟩ := (hcascade.alive x).mp hx
    exact ⟨hxh, hgone, fun hxc => hnot ((hcascade.below_iff hx).mpr hxc)⟩
  · rintro ⟨hxh, hgone, hnot⟩
    have hx := (hcascade.alive x).mpr ⟨hxh, hgone⟩
    exact ⟨hx, fun hxc => hnot ((hcascade.below_iff hx).mp hxc)⟩

/-- What goes with the child was alive until then, so nothing is destroyed twice. -/
theorem Cascade.destroyed_round (hdestroys : Destroys u v c) :
    ∃ l, v.destroyed = h.destroyed ++ l ∧ l.Nodup ∧
      ∀ x, x ∈ l ↔ x ∈ h.alive ∧ ∃ b ∈ gone ++ [c], h.links.Below x b := by
  obtain ⟨l, hl, hnodup, hmem⟩ := hcascade.destroyed
  obtain ⟨l', hl', hnodup', hmem'⟩ := hdestroys.destroyed
  refine ⟨l ++ l', ?_, ?_, fun x => ?_⟩
  · rw [hl', hl, append_assoc]
  · refine nodup_append.mpr ⟨hnodup, hnodup', ?_⟩
    rintro x hx _ hx' rfl
    have hgone := ((hcascade.alive x).mp ((hmem' x).mp hx').1).2
    exact hgone ((hmem x).mp hx).2
  · rw [mem_append, hmem, hmem', exists_gone_concat]
    constructor
    · rintro (⟨hxh, hgone⟩ | ⟨hx, hxc⟩)
      · exact ⟨hxh, .inl hgone⟩
      · exact ⟨((hcascade.alive x).mp hx).1, .inr ((hcascade.below_iff hx).mp hxc)⟩
    · rintro ⟨hxh, hbelow⟩
      by_cases hgone : ∃ b ∈ gone, h.links.Below x b
      · exact .inl ⟨hxh, hgone⟩
      · have hx := (hcascade.alive x).mpr ⟨hxh, hgone⟩
        exact .inr ⟨hx, (hcascade.below_iff hx).mpr (hbelow.resolve_left hgone)⟩

variable (hgrown : h.links.Grown h.alive)
include hgrown

/-- **One round**: the first child is destroyed. -/
theorem Cascade.round {rest : List Nat} (ho : o ∈ h.alive)
    (hchildren : u.links.children o = c :: rest) (hdestroys : Destroys u v c) :
    Cascade h v o (gone ++ [c]) := by
  have hc : c ∈ u.links.children o := by
    rw [hchildren]
    exact mem_cons_self
  have hou := hcascade.root_alive hgrown ho
  have hov : o ∈ v.alive :=
    (hdestroys.alive o).mpr ⟨hou, hcascade.grown.not_below_child hc⟩
  refine ⟨?_, hdestroys.grown, hcascade.alive_round hdestroys, ?_, ?_,
    hcascade.destroyed_round hdestroys⟩
  · -- the child is taken from the front of the list, where it stands only once
    have hnodup := hcascade.grown.children_nodup o
    rw [hchildren] at hnodup
    have hrest : ∀ x ∈ rest, x ≠ c := by
      rintro x hx rfl
      exact (nodup_cons.mp hnodup).1 hx
    have hfilter : (c :: rest).filter (· ≠ c) = rest := by
      rw [filter_cons_of_neg (by simp)]
      exact filter_eq_self.mpr fun x hx => by simpa using hrest x hx
    rw [hcascade.split, hdestroys.children o hov, hchildren, hfilter]
    simp
  · intro x hx
    rw [hdestroys.parent x hx]
    exact hcascade.parent x ((hdestroys.alive x).mp hx).1
  · intro x hx hne
    have hxu := ((hdestroys.alive x).mp hx).1
    rw [hdestroys.children x hx, hcascade.children x hxu hne]
    refine filter_eq_self.mpr fun b hb => ?_
    -- the child that went was a child of the object only
    have hbc : b ≠ c := by
      rintro rfl
      rw [← hcascade.children x hxu hne] at hb
      have hparent := (hcascade.grown.mem_children.mp hb).2
      rw [(hcascade.grown.mem_children.mp hc).2] at hparent
      exact hne (Option.some.inj hparent).symm
    simpa using hbc

/-- When all children are gone, the subtree of the object is what went with them and itself. -/
theorem Cascade.below_root (hleaf : u.links.children o = []) {x : Nat} (hx : x ∈ h.alive) :
    h.links.Below x o ↔ x = o ∨ ∃ c ∈ gone, h.links.Below x c := by
  have hgone : gone = h.links.children o := by
    rw [hcascade.split, hleaf, append_nil]
  rw [hgone]
  exact hgrown.below_iff hx

/-- The object is the last one to be destroyed. -/
theorem Cascade.destroyed_root (ho : o ∈ h.alive) (hleaf : u.links.children o = []) :
    ∃ l, u.destroyed ++ [o] = h.destroyed ++ l ∧ l.Nodup ∧
      ∀ x, x ∈ l ↔ x ∈ h.alive ∧ h.links.Below x o := by
  have hou := hcascade.root_alive hgrown ho
  obtain ⟨l, hl, hnodup, hlist⟩ := hcascade.destroyed
  refine ⟨l ++ [o], ?_, ?_, fun x => ?_⟩
  · rw [hl, append_assoc]
  · refine nodup_append.mpr ⟨hnodup, nodup_singleton o, ?_⟩
    rintro x hx _ hxo rfl
    obtain rfl := mem_singleton.mp hxo
    exact ((hcascade.alive x).mp hou).2 ((hlist x).mp hx).2
  · rw [mem_append, mem_singleton, hlist]
    constructor
    · rintro (⟨hxh, hchild⟩ | rfl)
      · exact ⟨hxh, (hcascade.below_root hgrown hleaf hxh).mpr (.inr hchild)⟩
      · exact ⟨ho, .refl⟩
    · rintro ⟨hxh, hxo⟩
      rcases (hcascade.below_root hgrown hleaf hxh).mp hxo with heq | hchild
      · exact .inr heq
      · exact .inl ⟨hxh, hchild⟩

/-- **The end**: without children the object itself goes. -/
theorem Cascade.finish (ho : o ∈ h.alive) (hleaf : u.links.children o = []) :
    ∃ t, u.release o = some t ∧ Destroys h t o := by
  have hou := hcascade.root_alive hgrown ho
  have hparent : (u.links.parent o).all (· ∈ u.alive) = true := by
    cases hp : u.links.parent o with
    | none => rfl
    | some p => simpa using hcascade.grown.parents o hou p hp
  have hbelow : ∀ {x}, x ∈ h.alive →
      (h.links.Below x o ↔ x = o ∨ ∃ c ∈ gone, h.links.Below x c) :=
    hcascade.below_root hgrown hleaf
  have hmem : ∀ {x}, x ∈ u.alive.filter (· ≠ o) ↔ x ∈ u.alive ∧ x ≠ o := by
    intro x
    simp [mem_filter]
  have horphan := hcascade.grown.orphan_children (a := o)
  have hroot : (u.links.orphan o).parent o = none := by
    rw [orphan_parent, update_self]
  have hbare : (u.links.orphan o).children o = [] := by
    rw [horphan, hleaf]
    rfl
  have hremove := remove_eq_self hroot hbare
  refine ⟨⟨u.alive.filter (· ≠ o), u.links.orphan o, u.destroyed ++ [o]⟩, ?_,
    (hcascade.grown.orphan o).drop hroot hbare, ?_, ?_, ?_,
    hcascade.destroyed_root hgrown ho hleaf⟩
  · rw [release, if_pos ⟨hou, hparent⟩, hremove]
  · intro x
    rw [hmem, hcascade.alive]
    constructor
    · rintro ⟨⟨hxh, hnot⟩, hne⟩
      refine ⟨hxh, fun hxo => ?_⟩
      rcases (hbelow hxh).mp hxo with heq | hchild
      · exact hne heq
      · exact hnot hchild
    · rintro ⟨hxh, hnot⟩
      refine ⟨⟨hxh, fun hchild => hnot ((hbelow hxh).mpr (.inr hchild))⟩, fun heq => ?_⟩
      exact hnot ((hbelow hxh).mpr (.inl heq))
  · intro x hx
    obtain ⟨hxu, hne⟩ := hmem.mp hx
    rw [orphan_parent, update_of_ne hne]
    exact hcascade.parent x hxu
  · intro x hx
    obtain ⟨hxu, hne⟩ := hmem.mp hx
    rw [horphan, hcascade.children x hxu hne]

end

section

variable (hgrown : h.links.Grown h.alive) {parent : Option Nat}
include hgrown

/-- With more fuel than there are objects in the subtree, a destruction ends. -/
theorem destroy_ends {fuel : Nat} (ho : o ∈ h.alive) (hfuel : h.links.population h.alive o < fuel) :
    ∃ t, destroy fuel o h = some t ∧ Destroys h t o := by
  induction fuel generalizing h o with
  | zero => cases hfuel
  | succ fuel ih =>
    have hbody : ∀ u c, (∃ gone, Cascade h u o gone) → (u.links.children o).head? = some c →
        ∃ v, destroy fuel c u = some v ∧ (∃ gone, Cascade h v o gone) ∧
          (v.links.children o).length < (u.links.children o).length := by
      rintro u c ⟨gone, hcascade⟩ hhead
      obtain ⟨rest, hrest⟩ := head?_eq_some_iff.mp hhead
      have hc : c ∈ u.links.children o := by
        rw [hrest]
        exact mem_cons_self
      have hsmaller := hcascade.population_lt hgrown ho hc
      obtain ⟨v, hrun, hdestroys⟩ :=
        ih hcascade.grown (hcascade.grown.listed o c hc) (by omega)
      have hnext := hcascade.round hgrown ho hrest hdestroys
      refine ⟨v, hrun, ⟨_, hnext⟩, ?_⟩
      have hsplit := hcascade.split.symm.trans hnext.split
      have hlength := congrArg List.length hsplit
      simp only [length_append, length_singleton] at hlength
      omega
    obtain ⟨u, hloop, ⟨gone, hcascade⟩, hdone⟩ := loop_total
      (fun u => ∃ gone, Cascade h u o gone) (fun u : Heap => (u.links.children o).length)
      hbody ⟨[], cascade_start hgrown o⟩
    obtain ⟨t, hrelease, hdestroys⟩ :=
      hcascade.finish hgrown ho (head?_eq_none_iff.mp hdone)
    have hchildren := hgrown.length_children_lt ho
    refine ⟨t, ?_, hdestroys⟩
    rw [destroy, if_pos ho, hloop (fuel + 1) (by omega)]
    exact hrelease

/-! ### Changing the parent -/

/-- The cycle check of `set_parent`: it goes up the parents and must not meet `o`. -/
def climb (h : Heap) (o : Nat) : Nat → Option Nat → Option (Option Nat) :=
  loop id fun it _ =>
    if it ∈ h.alive ∧ it ≠ o then some (h.links.parent it) else none

/-- `o->set_parent(parent)`. -/
def setParent (rounds : Nat) (h : Heap) (o : Nat) (parent : Option Nat) : Option Heap :=
  if o ∈ h.alive then
    if h.links.parent o = parent then some h
    else
      match h.climb o rounds parent with
      | none => none
      | some _ =>
        if (h.links.parent o).all (· ∈ h.alive) ∧ parent.all (· ∈ h.alive) then
          match parent with
          | none => some { h with links := h.links.orphan o }
          | some p => some { h with links := (h.links.orphan o).attach o p }
        else none
  else none

/-- Only the link of `o` is another: all other objects have the parents and, in the same
order, the children they had. -/
structure Moves (h t : Heap) (o : Nat) (parent : Option Nat) : Prop where
  grown : t.links.Grown t.alive
  alive : t.alive = h.alive
  destroyed : t.destroyed = h.destroyed
  parent : t.links.parent = update h.links.parent o parent
  children : ∀ q, (t.links.children q).filter (· ≠ o) = (h.links.children q).filter (· ≠ o)

/-- The check ends, and passes for a parent outside the subtree of the object. -/
theorem climb_ends (hparent : ∀ p ∈ parent, p ∈ h.alive ∧ ¬ h.links.Below p o) :
    ∃ it, ∀ rounds, h.alive.length < rounds → h.climb o rounds parent = some it := by
  let height (it : Option Nat) : Nat := it.elim 0 (h.links.depth h.alive)
  have hbody : ∀ it x, (∀ p ∈ it, p ∈ h.alive ∧ ¬ h.links.Below p o) → id it = some x →
      ∃ next, (if x ∈ h.alive ∧ x ≠ o then some (h.links.parent x) else none) = some next ∧
        (∀ p ∈ next, p ∈ h.alive ∧ ¬ h.links.Below p o) ∧ height next < height it := by
    intro it x hit hguard
    obtain rfl : it = some x := hguard
    obtain ⟨hx, hnot⟩ := hit x rfl
    have hne : x ≠ o := by
      rintro rfl
      exact hnot .refl
    refine ⟨h.links.parent x, if_pos ⟨hx, hne⟩, ?_, ?_⟩
    · intro p hp
      exact ⟨hgrown.parents x hx p hp, fun hbelow => hnot (.head hp hbelow)⟩
    · cases hp : h.links.parent x with
      | none => exact depth_pos hx
      | some p => exact hgrown.acyclic.depth_lt hx hp
  obtain ⟨it, hloop, -, -⟩ := loop_total
    (fun it : Option Nat => ∀ p ∈ it, p ∈ h.alive ∧ ¬ h.links.Below p o) height hbody hparent
  refine ⟨it, fun rounds hrounds => hloop rounds (Nat.lt_of_le_of_lt ?_ hrounds)⟩
  cases parent with
  | none => exact Nat.zero_le _
  | some p => exact depth_le p

theorem moves_of_grown (ho : o ∈ h.alive)
    (hparent : ∀ p ∈ parent, p ∈ h.alive ∧ ¬ h.links.Below p o) :
    Moves h { h with links := parent.elim (h.links.orphan o) ((h.links.orphan o).attach o) } o
      parent := by
  have hfilter : ∀ q, ((h.links.orphan o).children q).filter (· ≠ o) =
      (h.links.children q).filter (· ≠ o) := by
    intro q
    rw [hgrown.orphan_children]
    simp
  cases parent with
  | none => exact ⟨hgrown.orphan o, rfl, rfl, orphan_parent, hfilter⟩
  | some p =>
    obtain ⟨hp, hnot⟩ := hparent p rfl
    have hroot : (h.links.orphan o).parent o = none := by
      rw [orphan_parent, update_self]
    have hbelow : ¬ (h.links.orphan o).Below p o :=
      fun hpo => hnot (Relation.ReflTransGen.mono (fun _ _ hup => (orphan_up hup).2) _ _ hpo)
    refine ⟨(hgrown.orphan o).attach ho hp hroot hbelow, rfl, rfl, ?_, fun q => ?_⟩
    · change update (h.links.orphan o).parent o (some p) = _
      rw [orphan_parent, update_idem]
    · change (update (h.links.orphan o).children p
        ((h.links.orphan o).children p ++ [o]) q).filter (· ≠ o) = _
      by_cases hq : q = p
      · subst hq
        rw [update_self, filter_append, hfilter]
        simp
      · rw [update_of_ne hq, hfilter]

theorem setParent_ends (ho : o ∈ h.alive)
    (hparent : ∀ p ∈ parent, p ∈ h.alive ∧ ¬ h.links.Below p o) :
    ∃ t, (∀ rounds, h.alive.length < rounds → h.setParent rounds o parent = some t) ∧
      Moves h t o parent := by
  by_cases hsame : h.links.parent o = parent
  · refine ⟨h, fun rounds _ => ?_, hgrown, rfl, rfl, ?_, fun _ => rfl⟩
    · unfold setParent
      rw [if_pos ho, if_pos hsame]
    · rw [← hsame, update_eq_self]
  · obtain ⟨it, hclimb⟩ := climb_ends hgrown hparent
    have hold : (h.links.parent o).all (· ∈ h.alive) = true := by
      cases hp : h.links.parent o with
      | none => rfl
      | some p => simpa using hgrown.parents o ho p hp
    have hnew : parent.all (· ∈ h.alive) = true := by
      cases parent with
      | none => rfl
      | some p => simpa using (hparent p rfl).1
    refine ⟨_, fun rounds hrounds => ?_, moves_of_grown hgrown ho hparent⟩
    unfold setParent
    rw [if_pos ho, if_neg hsame, hclimb rounds hrounds]
    rw [if_pos ⟨hold, hnew⟩]
    cases parent <;> rfl

end

/-- **Destroying and moving** in any forest.  Destroying an object ends; it destroys the
object and its descendants, each once, and nothing else, and leaves the rest as it was.
Giving an object a parent that is not one of its descendants ends and moves that object
only. -/
theorem destroy_and_set_parent (h : Heap) (hgrown : h.links.Grown h.alive) :
    (∀ o ∈ h.alive, ∃ t n, (∀ fuel, n ≤ fuel → destroy fuel o h = some t) ∧ Destroys h t o) ∧
      ∀ o ∈ h.alive, ∀ p ∈ h.alive, ¬ h.links.Below p o →
        ∃ t n, (∀ rounds, n ≤ rounds → h.setParent rounds o (some p) = some t) ∧
          Moves h t o (some p) := by
  refine ⟨fun o ho => ?_, fun o ho p hp hbelow => ?_⟩
  · obtain ⟨t, hrun, hdestroys⟩ := destroy_ends hgrown ho (Nat.lt_succ_self _)
    exact ⟨t, _, fun fuel hle => destroy_mono hle hrun, hdestroys⟩
  · have hparent : ∀ q ∈ some p, q ∈ h.alive ∧ ¬ h.links.Below q o := by
      rintro q ⟨⟩
      exact ⟨hp, hbelow⟩
    obtain ⟨t, hrun, hmoves⟩ := setParent_ends hgrown ho hparent
    exact ⟨t, h.alive.length + 1, hrun, hmoves⟩

/-- The objects 1 and 3 are children of 0, and 2 is a child of 1. -/
def smallForest : Heap where
  alive := [0, 1, 2, 3]
  links := ((edgeless.attach 1 0).attach 2 1).attach 3 0
  destroyed := []

theorem smallForest_grown : smallForest.links.Grown smallForest.alive := by
  have hnone : edgeless.Grown [0, 1, 2, 3] := grown_edgeless (by decide)
  have hone := hnone.attach (a := 1) (p := 0) (by decide) (by decide) rfl
    (hnone.not_below_leaf (by decide) rfl (by decide))
  have htwo := hone.attach (a := 2) (p := 1) (by decide) (by decide) rfl
    (hone.not_below_leaf (by decide) rfl (by decide))
  exact htwo.attach (by decide) (by decide) rfl
    (htwo.not_below_leaf (by decide) rfl (by decide))

theorem destroy_and_set_parent_small :
    ((destroy 5 1 smallForest).map fun t => (t.destroyed, t.links.children 0)) =
        some ([2, 1], [3]) ∧
      ∃ t n, (∀ fuel, n ≤ fuel → destroy fuel 1 smallForest = some t) ∧
        Destroys smallForest t 1 := by
  obtain ⟨hdestroy, -⟩ := destroy_and_set_parent smallForest smallForest_grown
  exact ⟨rfl, hdestroy 1 (by decide)⟩

end Heap

end CxxKit.Destruction
