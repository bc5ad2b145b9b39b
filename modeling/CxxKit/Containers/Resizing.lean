import CxxKit.Containers.TableRuns

/-!
`resize` and copy construction from an arbitrary table.

Nothing is assumed of the old table beyond the agreement of its arrays
(`Table.WellFormed`) and that its keys are pairwise different: its chains may be
broken, its tombstones many, its control bytes unrelated to the hashes.  The new
capacity is any power of two with room, the small ones included, where the table
may come out completely full.
-/

namespace CxxKit.RawHashSet

open Table

variable {κ ν β : Type} {K : KeyHash κ} {P : Policy κ ν β} {t : Table β} {cs : List (Cell β)}
  {cap : Nat}

/-- `t'` holds exactly what `t` holds, without tombstones and with every element
where a lookup finds it. -/
structure Relaid (K : KeyHash κ) (P : Policy κ ν β) (t t' : Table β) : Prop where
  elements : t'.contents.Perm t.contents
  noTombstone : .kDeleted ∉ t'.mCtrl
  size : t'.mSize = t.mSize
  found : ∀ v ∈ t.contents, ∃ i, find K P t' (P.key v) = .ok i ∧ t'.slotAt i = .ok v

theorem relaid_unallocated (hsize : t.mSize = 0) (hempty : t.contents = []) :
    Relaid K P t unallocated where
  elements := by rw [hempty, contents_unallocated]
  noTombstone := by simp [unallocated]
  size := hsize.symm
  found := by simp [hempty]

theorem NoTombstones.kDeleted_notMem (h : NoTombstones cs) :
    .kDeleted ∉ (ofCells K P cs).mCtrl := by
  intro hmem
  rcases List.mem_append.mp hmem with hmem | hmem
  · obtain ⟨c, hc, hdel⟩ := List.mem_map.mp hmem
    cases c with
    | empty | full v => cases hdel
    | deleted => exact h hc
  · simp at hmem

/-- In a table whose chains are intact every element is found. -/
theorem find_stored (hcap : PowerOfTwo cs.length) (hreach : Reached K P cs)
    (hdist : Distinct K P cs) {v : β} (hv : v ∈ values cs) :
    ∃ i, find K P (ofCells K P cs) (P.key v) = .ok i ∧ (ofCells K P cs).slotAt i = .ok v := by
  obtain ⟨j, hj⟩ := List.mem_iff_getElem?.mp (mem_values.mp hv)
  refine ⟨j, ?_, slotAt_ofCells hj⟩
  rw [find_ofCells hcap, scanFor_stored hcap hreach hdist hj]

/-- Inserting the elements of `t` into fresh storage with room for them. -/
theorem fold_relaid (h : t.WellFormed) (hkeys : KeysDistinct K P t.contents) (hcap : PowerOfTwo cap)
    (hroom : t.contents.length ≤ growthThreshold cap) :
    ∃ t', t.contents.foldlM (uncheckedInsert K P) (fresh cap) = .ok t' ∧ t'.mCapacity = cap ∧
      Relaid K P t t' := by
  obtain ⟨ds, hds, rfl, htomb, hperm, hreach, hdist⟩ :=
    fold_fresh 1 hcap hroom hkeys
  refine ⟨ofCells K P ds, hds, rfl, ?_, htomb.kDeleted_notMem, ?_, ?_⟩
  · rw [contents_ofCells]
    exact hperm
  · rw [ofCells_mSize, h.size, hperm.length_eq]
  · intro v hv
    exact find_stored hcap hreach hdist (hperm.mem_iff.mpr hv)

theorem resize_relaid (h : t.WellFormed) (hkeys : KeysDistinct K P t.contents)
    (hcap : PowerOfTwo cap) (hroom : t.contents.length ≤ growthThreshold cap) :
    ∃ t', resize K P t cap = .ok t' ∧ t'.mCapacity = cap ∧ Relaid K P t t' := by
  rw [resize, h.resizeWith_eq]
  exact fold_relaid h hkeys hcap hroom

/-- A table without storage is copied without allocating, any other through an
iteration over it. -/
theorem copyConstruct_relaid (h : t.WellFormed) (hkeys : KeysDistinct K P t.contents)
    (hcap : t.mCapacity = 0 ∨ PowerOfTwo t.mCapacity)
    (hroom : t.contents.length ≤ growthThreshold t.mCapacity) :
    ∃ t', copyConstruct K P t = .ok t' ∧ t'.mCapacity = t.mCapacity ∧ Relaid K P t t' := by
  rcases hcap with hzero | hcap
  · have hempty : t.contents = [] := by
      rw [hzero] at hroom
      exact List.length_eq_zero_iff.mp (Nat.le_zero.mp hroom)
    refine ⟨unallocated, ?_, hzero.symm, relaid_unallocated ?_ hempty⟩
    · rw [copyConstruct, hzero]
      rfl
    · rw [h.size, hempty]
      rfl
  · rw [copyConstruct, if_pos hcap.pos]
    simp only [copyFrom, h.elements_eq hcap.pos.ne', ok_bind]
    exact fold_relaid h hkeys hcap hroom

/-- **Rebuilding loses nothing.** From every well-formed table with pairwise
different keys, `resize` to any power of two whose threshold admits the elements,
and copy construction at the table's own capacity, succeed and give a table with
the same elements and size, without tombstones, in which every element is found. -/
theorem rebuilding_exact (K : KeyHash κ) (P : Policy κ ν β) (t : Table β) (h : t.WellFormed)
    (hkeys : KeysDistinct K P t.contents) :
    (∀ n, t.contents.length ≤ growthThreshold (2 ^ n) →
        ∃ t', resize K P t (2 ^ n) = .ok t' ∧ t'.mCapacity = 2 ^ n ∧ Relaid K P t t') ∧
      ((t.mCapacity = 0 ∨ ∃ n, t.mCapacity = 2 ^ n) →
        t.contents.length ≤ growthThreshold t.mCapacity →
        ∃ t', copyConstruct K P t = .ok t' ∧ t'.mCapacity = t.mCapacity ∧ Relaid K P t t') := by
  constructor
  · intro n hroom
    exact resize_relaid h hkeys ⟨n, rfl⟩ hroom
  · intro hcap hroom
    exact copyConstruct_relaid h hkeys hcap hroom

/-- Two elements and two tombstones; neither element is in its home slot, and neither
has the `H2` of its key as control byte. -/
def scattered : Table Nat where
  mCtrl := [.kDeleted, .full 5, .kDeleted, .full 9, .kSentinel]
  mSlots := [none, some 3, none, some 6]
  mCapacity := 4
  mSize := 2

theorem scattered_wellFormed : scattered.WellFormed where
  slots := rfl
  size := rfl
  byte := by
    intro i s hs
    have hlt : i < 4 := (List.getElem?_eq_some_iff.mp hs).1
    obtain rfl | rfl | rfl | rfl : i = 0 ∨ i = 1 ∨ i = 2 ∨ i = 3 := by omega
    all_goals
      cases hs
      exact ⟨_, rfl, by decide, rfl⟩
  last := fun _ => rfl

/-- Shrunk to two slots, which it fills, and copied at its own capacity. -/
theorem rebuilding_exact_scattered :
    (∃ t', resize spreadKeys (flatHashSetPolicy Nat) scattered (2 ^ 1) = .ok t' ∧
        t'.mCapacity = 2 ^ 1 ∧ Relaid spreadKeys (flatHashSetPolicy Nat) scattered t') ∧
      ∃ t', copyConstruct spreadKeys (flatHashSetPolicy Nat) scattered = .ok t' ∧
        t'.mCapacity = 4 ∧ Relaid spreadKeys (flatHashSetPolicy Nat) scattered t' := by
  obtain ⟨hresize, hcopy⟩ := rebuilding_exact spreadKeys (flatHashSetPolicy Nat) scattered
    scattered_wellFormed (by unfold KeysDistinct; decide)
  exact ⟨hresize 1 (by decide), hcopy (.inr ⟨2, rfl⟩) (by decide)⟩

end CxxKit.RawHashSet
