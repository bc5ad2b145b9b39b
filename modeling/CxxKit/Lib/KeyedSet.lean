import Mathlib.Data.Set.Card

/-!
Finite sets of elements with pairwise different keys.

With an element that is its own key this is a finite set; with a pair keyed by its
first component it is a finite map.  Keys are compared up to an equivalence.  The
operations below are the mathematical ones, not algorithms; `Lists vs S` relates
them to programs: the list `vs` holds each element of `S` once.
-/

/-- How elements are keyed: the key of an element and when keys count as equal. -/
structure Keying (κ β : Type*) where
  key : β → κ
  same : κ → κ → Prop
  equiv : Equivalence same

/-- A finite set whose elements have pairwise different keys. -/
structure KeyedSet {κ β : Type*} (D : Keying κ β) where
  carrier : Set β
  finite : carrier.Finite
  distinct : ∀ v ∈ carrier, ∀ w ∈ carrier, D.same (D.key v) (D.key w) → v = w

namespace KeyedSet

open Classical List

variable {κ β : Type*} {D : Keying κ β} {S : KeyedSet D} {v : β} {k : κ}

section

variable (S)

/-- Some element has the key `k`. -/
def Has (k : κ) : Prop := ∃ v ∈ S.carrier, D.same k (D.key v)

def empty : KeyedSet D where
  carrier := ∅
  finite := Set.finite_empty
  distinct := by simp

/-- The element with key `k`, if any. -/
noncomputable def find (k : κ) : Option β :=
  if h : S.Has k then some h.choose else none

/-- Adds `v`, unless its key is taken. -/
noncomputable def insert (v : β) : KeyedSet D where
  carrier := if S.Has (D.key v) then S.carrier else Set.insert v S.carrier
  finite := by
    split
    · exact S.finite
    · exact S.finite.insert v
  distinct := by
    split
    · exact S.distinct
    next habsent =>
      rintro x (rfl | hx) y (rfl | hy) hxy
      · rfl
      · exact absurd ⟨y, hy, hxy⟩ habsent
      · exact absurd ⟨x, hx, D.equiv.symm hxy⟩ habsent
      · exact S.distinct x hx y hy hxy

/-- Removes the element with key `k`, if any. -/
def remove (k : κ) : KeyedSet D where
  carrier := {v ∈ S.carrier | ¬ D.same k (D.key v)}
  finite := S.finite.subset (Set.sep_subset _ _)
  distinct v hv w hw := S.distinct v hv.1 w hw.1

/-- Puts `v` in place of the element with its key, if any. -/
noncomputable def replace (v : β) : KeyedSet D := (S.remove (D.key v)).insert v

noncomputable def size : Nat := S.carrier.ncard

end

/-- The list holds each element once. -/
def Lists (vs : List β) (S : KeyedSet D) : Prop := vs.Nodup ∧ ∀ v, v ∈ vs ↔ v ∈ S.carrier

theorem carrier_insert_of_has (h : S.Has (D.key v)) : (S.insert v).carrier = S.carrier := if_pos h

theorem carrier_insert_of_not (h : ¬ S.Has (D.key v)) :
    (S.insert v).carrier = Set.insert v S.carrier := if_neg h

/-! ### Lookup -/

theorem find_eq_some (hv : v ∈ S.carrier) (hk : D.same k (D.key v)) : S.find k = some v := by
  have h : S.Has k := ⟨v, hv, hk⟩
  rw [find, dif_pos h]
  obtain ⟨hmem, hsame⟩ := h.choose_spec
  exact congrArg some (S.distinct _ hmem v hv (D.equiv.trans (D.equiv.symm hsame) hk))

theorem find_eq_none (h : ∀ v ∈ S.carrier, ¬ D.same k (D.key v)) : S.find k = none := by
  rw [find, dif_neg]
  rintro ⟨v, hv, hk⟩
  exact h v hv hk

/-! ### Lists of the elements -/

variable {vs : List β}

theorem lists_nil : Lists [] (empty : KeyedSet D) := ⟨nodup_nil, by simp [empty]⟩

section

variable (h : Lists vs S)
include h

theorem Lists.perm {ws : List β} (hp : vs.Perm ws) : Lists ws S :=
  ⟨hp.nodup_iff.mp h.1, fun v => by rw [← hp.mem_iff, h.2]⟩

theorem Lists.length : vs.length = S.size := by
  have hcoe : S.carrier = (vs.toFinset : Set β) := by
    ext v
    simp [← h.2 v]
  rw [size, hcoe, Set.ncard_coe_finset, toFinset_card_of_nodup h.1]

theorem Lists.insert_present {w : β} (hw : w ∈ vs) (hkey : D.same (D.key v) (D.key w)) :
    Lists vs (S.insert v) := by
  have hhas : S.Has (D.key v) := ⟨w, (h.2 w).mp hw, hkey⟩
  refine ⟨h.1, fun x => ?_⟩
  rw [h.2, carrier_insert_of_has hhas]

theorem Lists.insert_absent (habsent : ∀ w ∈ vs, ¬ D.same (D.key v) (D.key w)) :
    Lists (v :: vs) (S.insert v) := by
  have hnot : ¬ S.Has (D.key v) := by
    rintro ⟨w, hw, hkey⟩
    exact habsent w ((h.2 w).mpr hw) hkey
  refine ⟨nodup_cons.mpr ⟨fun hv => habsent v hv (D.equiv.refl _), h.1⟩, fun x => ?_⟩
  rw [carrier_insert_of_not hnot, mem_cons, h.2]
  exact Iff.rfl

omit h in
/-- Removing the key of a listed element takes exactly that element out. -/
theorem Lists.remove_cons (h : Lists (v :: vs) S) (hkey : D.same k (D.key v)) :
    Lists vs (S.remove k) := by
  obtain ⟨hv, hnodup⟩ := nodup_cons.mp h.1
  refine ⟨hnodup, fun x => ⟨fun hx => ?_, fun hx => ?_⟩⟩
  · have hmem : x ∈ S.carrier := (h.2 x).mp (mem_cons_of_mem _ hx)
    refine ⟨hmem, fun hkx => hv ?_⟩
    have hEq : x = v := S.distinct x hmem v ((h.2 v).mp (mem_cons_self ..))
      (D.equiv.trans (D.equiv.symm hkx) hkey)
    rwa [← hEq]
  · rcases mem_cons.mp ((h.2 x).mpr hx.1) with rfl | hmem
    · exact absurd hkey hx.2
    · exact hmem

theorem Lists.remove_absent (habsent : ∀ w ∈ vs, ¬ D.same k (D.key w)) : Lists vs (S.remove k) := by
  refine ⟨h.1, fun x => ⟨fun hx => ⟨(h.2 x).mp hx, habsent x hx⟩, fun hx => (h.2 x).mpr hx.1⟩⟩

end

/-- Replacing a listed element by one with the same key. -/
theorem Lists.replace_cons {w : β} (h : Lists (v :: vs) S) (hkey : D.same (D.key w) (D.key v)) :
    Lists (w :: vs) (S.replace w) := by
  refine (h.remove_cons hkey).insert_absent fun x hx hwx => ?_
  obtain ⟨hv, -⟩ := nodup_cons.mp h.1
  have hEq : x = v := S.distinct x ((h.2 x).mp (mem_cons_of_mem _ hx)) v
    ((h.2 v).mp (mem_cons_self ..)) (D.equiv.trans (D.equiv.symm hwx) hkey)
  exact hv (hEq ▸ hx)

end KeyedSet
