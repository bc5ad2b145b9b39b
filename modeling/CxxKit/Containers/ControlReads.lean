import CxxKit.Containers.TableRuns

/-!
Which control bytes the reading operations look at.

A read of a control byte or of a slot outside the arrays, or of a slot without an
element, is the fault `invalidRead`; so an operation that does not fault in this
way, on a table whose control array has the `mCapacity + 1` bytes
`0 .. mCapacity`, looks at no other byte.  `reads_in_bounds_iff` says for which
objects of a run that holds: for those that own storage.  An object without any
is handled by `find` with `return end()`, but building an iterator already reads
the byte it points at.
-/

namespace CxxKit.RawHashSet

open Table

variable {κ ν β : Type} {K : KeyHash κ} {P : Policy κ ν β}

/-- The reading operations of a table stay within its control bytes
`0 .. mCapacity`, and iteration ends at the sentinel. -/
structure ReadsInBounds (K : KeyHash κ) (P : Policy κ ν β) (t : Table β) : Prop where
  /-- The control array is allocated, with the sentinel as its last byte. -/
  bytes : t.mCtrl.length = t.mCapacity + 1
  sentinelByte : t.mCtrl[t.mCapacity]? = some .kSentinel
  /-- However many rounds a probe takes, also one that never stops. -/
  rounds : ∀ k fuel, findLoop K P t k fuel (.start (K.hash k) (t.mCapacity - 1)) ≠
    .error .invalidRead
  find : ∀ k, find K P t k ≠ .error .invalidRead
  contains : ∀ k, contains K P t k ≠ .error .invalidRead
  count : ∀ k, count K P t k ≠ .error .invalidRead
  erase : ∀ k, erase K P t k ≠ .error .invalidRead
  eraseIter : ∀ it v, t.slotAt it = .ok v → ∃ t', t.eraseAt it = .ok t'
  begin : ∃ it, t.begin = .ok it ∧ it ≤ t.mCapacity
  sentinel : t.sentinel = .ok t.mCapacity
  /-- Incrementing an iterator that points at an element moves it forward, at most
  to the sentinel. -/
  increment : ∀ it v, t.slotAt it = .ok v →
    ∃ it', t.iterator (it + 1) = .ok it' ∧ it < it' ∧ it' ≤ t.mCapacity
  /-- The loop from `begin()` ends at `end()`, having seen the stored elements. -/
  iteration : t.elements = .ok t.contents

section Cells

variable {cs : List (Cell β)}

theorem findLoop_ne_invalidRead (hcap : PowerOfTwo cs.length) (k : κ) (fuel : Nat) :
    findLoop K P (ofCells K P cs) k fuel (.start (K.hash k) (cs.length - 1)) ≠
      .error .invalidRead := by
  rw [findLoop_ofCells fuel _ (hcap.positions_lt _ fuel) none]
  split
  · simp
  · simp
  · simp

/-- What is done with the answer of `find` depends on the answer only. -/
theorem bind_find_ne_invalidRead {α : Type} (hcap : PowerOfTwo cs.length) (k : κ)
    {f : Nat → Except Fault α} (hend : f cs.length ≠ .error .invalidRead)
    (helem : ∀ p v, cs[p]? = some (.full v) → f p ≠ .error .invalidRead) :
    find K P (ofCells K P cs) k >>= f ≠ .error .invalidRead := by
  obtain ⟨-, hfind⟩ | ⟨p, v, -, hp, -, hfind⟩ | ⟨q, -, hfind⟩ :=
    find_cases hcap k
  · rw [hfind]
    simp
  · rw [hfind]
    exact helem p v hp
  · rw [hfind]
    exact hend

theorem readsInBounds_ofCells (hcap : ValidCapacity cs.length) :
    ReadsInBounds K P (ofCells K P cs) := by
  have hpow := hcap.powerOfTwo
  have hwf : (ofCells K P cs).WellFormed := wellFormed_ofCells cs
  have hne : (ofCells K P cs).mCapacity ≠ 0 := hcap.pos.ne'
  have hend : (ofCells K P cs).sentinel = .ok cs.length := sentinel_ofCells cs
  have hslot : ∀ {it v}, (ofCells K P cs).slotAt it = .ok v → it < cs.length := fun hv =>
    (List.getElem?_eq_some_iff.mp (slotAt_ofCells_inv hv)).1
  constructor
  case bytes => simp [ofCells]
  case sentinelByte => simp [ofCells]
  case rounds => exact fun k fuel => findLoop_ne_invalidRead hpow k fuel
  case find =>
    intro k
    rw [find, if_neg hne]
    exact findLoop_ne_invalidRead hpow k cs.length
  case contains =>
    intro k
    apply bind_find_ne_invalidRead hpow k
    · simp [hend]
    · simp [hend]
  case count =>
    intro k
    apply bind_find_ne_invalidRead hpow k
    · simp [hend]
    · simp [hend]
  case erase =>
    intro k
    apply bind_find_ne_invalidRead hpow k
    · simp [hend]
    · intro p v hp
      have hlt : p ≠ cs.length := ne_sentinel hp
      simp [hend, hlt, eraseAt_ofCells hcap hp]
  case eraseIter => exact fun it v hv => ⟨_, eraseAt_ofCells hcap (slotAt_ofCells_inv hv)⟩
  case begin =>
    obtain ⟨it, hit, -, hle⟩ := hwf.iterator_ok hne (Nat.zero_le _)
    exact ⟨it, hit, hle⟩
  case sentinel => exact hend
  case increment =>
    intro it v hv
    obtain ⟨it', hit, hlt, hle⟩ := hwf.iterator_ok hne (Nat.succ_le_of_lt (hslot hv))
    exact ⟨it', hit, hlt, hle⟩
  case iteration => exact hwf.elements_eq hne

end Cells

/-- A table without storage has no byte to build an iterator from. -/
theorem not_readsInBounds_unallocated : ¬ ReadsInBounds K P (unallocated : Table β) := by
  intro h
  obtain ⟨it, hit, -⟩ := h.begin
  cases hit

theorem Laid.readsInBounds_iff {t : Table β} (h : Laid K P t) :
    ReadsInBounds K P t ↔ t.mCapacity ≠ 0 := by
  cases h with
  | unallocated => exact iff_of_false not_readsInBounds_unallocated (fun h => h rfl)
  | @cells cs sized =>
    exact iff_of_true (readsInBounds_ofCells sized.capacity) sized.capacity.pos.ne'

/-- **Reads within the control array.** In every state of every run, the reading
operations of an object stay within the control bytes `0 .. mCapacity` and
iteration ends at the sentinel exactly when the object owns storage. -/
theorem reads_in_bounds_iff (K : KeyHash κ) (P : Policy κ ν β) (ops : List (Op κ ν β)) :
    (Family.machine K P).Always
      (fun s => ∀ c, ReadsInBounds K P (s c) ↔ (s c).mCapacity ≠ 0)
      (Family.machine K P).init ops :=
  (always_laid K P ops).mono fun _ h c => (h c).readsInBounds_iff

/-- On an object that was moved from, and on a default constructed one, `begin`,
`end` and every lookup read through the null pointer. -/
theorem null_ctrl_read : ∃ s, (Family.machine spreadKeys (flatHashSetPolicy Nat)).run
        (Family.machine spreadKeys (flatHashSetPolicy Nat)).init
        [.insert 0 7, .moveConstruct 1 0] = some s ∧
      (s 1).mSize = 1 ∧
      ∀ c, c = 0 ∨ c = 2 →
        (s c).begin = .error .invalidRead ∧ (s c).sentinel = .error .invalidRead ∧
        find spreadKeys (flatHashSetPolicy Nat) (s c) 7 = .error .invalidRead ∧
        contains spreadKeys (flatHashSetPolicy Nat) (s c) 7 = .error .invalidRead ∧
        count spreadKeys (flatHashSetPolicy Nat) (s c) 7 = .error .invalidRead ∧
        erase spreadKeys (flatHashSetPolicy Nat) (s c) 7 = .error .invalidRead := by
  refine ⟨_, rfl, rfl, ?_⟩
  rintro c (rfl | rfl)
  · exact ⟨rfl, rfl, rfl, rfl, rfl, rfl⟩
  · exact ⟨rfl, rfl, rfl, rfl, rfl, rfl⟩

end CxxKit.RawHashSet
