import CxxKit.Lib.Triangular
import CxxKit.Containers.Layout

/-!
Tables as lists of cells.

A table that owns storage is determined by what each of its slots holds: nothing
yet, nothing any more, or an element.  `Table.ofCells` lays such a list out as
control bytes and slots; the equations below compute every operation of
`RawHashSet` on a laid-out table in terms of `scan`, the probe over the list of
cells.  Later modules reason about cells only.
-/

namespace CxxKit.RawHashSet

open List Nat Option ProbeSeq Triangular

variable {κ ν β : Type}

/-- What a slot holds. -/
inductive Cell (β : Type) where
  | empty
  | deleted
  | full (v : β)
deriving DecidableEq, Repr

namespace Cell

def value? : Cell β → Option β
  | .full v => some v
  | _ => none

@[simp] theorem value?_empty : (Cell.empty : Cell β).value? = none := rfl
@[simp] theorem value?_deleted : (Cell.deleted : Cell β).value? = none := rfl
@[simp] theorem value?_full (v : β) : (Cell.full v).value? = some v := rfl

/-- The control byte of a cell. -/
def ctrl (K : KeyHash κ) (P : Policy κ ν β) : Cell β → Ctrl
  | .empty => .kEmpty
  | .deleted => .kDeleted
  | .full v => H2 (K.hash (P.key v))

variable {K : KeyHash κ} {P : Policy κ ν β}

@[simp] theorem ctrl_empty : (Cell.empty : Cell β).ctrl K P = .kEmpty := rfl
@[simp] theorem ctrl_deleted : (Cell.deleted : Cell β).ctrl K P = .kDeleted := rfl
@[simp] theorem ctrl_full (v : β) : (Cell.full v).ctrl K P = H2 (K.hash (P.key v)) := rfl

theorem ctrl_eq_kEmpty_iff {c : Cell β} : c.ctrl K P = .kEmpty ↔ c = .empty := by
  cases c <;> simp [H2]

end Cell

/-- The elements of a list of cells, in slot order. -/
def values (cs : List (Cell β)) : List β := cs.filterMap Cell.value?

@[simp] theorem values_nil : values ([] : List (Cell β)) = [] := rfl

theorem values_cons (c : Cell β) (cs : List (Cell β)) :
    values (c :: cs) = c.value?.toList ++ values cs := by
  cases c <;> rfl

theorem values_append (cs ds : List (Cell β)) : values (cs ++ ds) = values cs ++ values ds :=
  filterMap_append ..

@[simp] theorem values_replicate_empty (n : Nat) :
    values (replicate n (Cell.empty : Cell β)) = [] := by
  induction n with
  | zero => rfl
  | succ n ih => simpa [replicate_succ, values_cons] using ih

variable {cs : List (Cell β)} {v : β} {n i : Nat}

theorem mem_values : v ∈ values cs ↔ Cell.full v ∈ cs := by
  simp only [values, mem_filterMap]
  constructor
  · rintro ⟨c, hc, hv⟩
    cases c with
    | empty | deleted => simp at hv
    | full w =>
      cases hv
      exact hc
  · intro h
    exact ⟨_, h, rfl⟩

namespace Table

/-- Storage holding the given cells. -/
def ofCells (K : KeyHash κ) (P : Policy κ ν β) (cs : List (Cell β)) : Table β where
  mCtrl := cs.map (Cell.ctrl K P) ++ [.kSentinel]
  mSlots := cs.map Cell.value?
  mCapacity := cs.length
  mSize := (values cs).length

section Layout

variable {K : KeyHash κ} {P : Policy κ ν β}

@[simp] theorem ofCells_mCapacity (cs : List (Cell β)) :
    (ofCells K P cs).mCapacity = cs.length := rfl

@[simp] theorem ofCells_mSize (cs : List (Cell β)) :
    (ofCells K P cs).mSize = (values cs).length := rfl

theorem fresh_eq_ofCells (n : Nat) :
    (fresh n : Table β) = ofCells K P (replicate n .empty) := by
  simp [fresh, ofCells]

variable {c : Cell β}

@[simp] theorem contents_ofCells : (ofCells K P cs).contents = values cs := by
  simp [contents, ofCells, values, filterMap_map]

theorem ctrl_ofCells (h : cs[i]? = some c) : (ofCells K P cs).mCtrl[i]? = some (c.ctrl K P) := by
  obtain ⟨hlt, hget⟩ := List.getElem?_eq_some_iff.mp h
  simp [ofCells, getElem?_append_left, hlt, hget]

theorem slots_ofCells_iff {p : Nat} :
    (ofCells K P cs).mSlots[p]? = some (some v) ↔ cs[p]? = some (.full v) := by
  simp only [ofCells, getElem?_map, map_eq_some_iff]
  constructor
  · rintro ⟨c, hc, hv⟩
    cases c with
    | empty | deleted => cases hv
    | full w =>
      cases hv
      exact hc
  · intro h
    exact ⟨_, h, rfl⟩

/-- Laying cells out makes the arrays agree. -/
theorem wellFormed_ofCells (cs : List (Cell β)) : (ofCells K P cs).WellFormed where
  slots := by simp [ofCells]
  size := by rw [contents_ofCells, ofCells_mSize]
  byte := by
    intro i s hs
    rw [ofCells, getElem?_map, map_eq_some_iff] at hs
    obtain ⟨c, hc, rfl⟩ := hs
    refine ⟨_, ctrl_ofCells hc, ?_, ?_⟩
    · cases c <;> simp [H2]
    · cases c <;> simp
  last := by simp [ofCells]

/-- The layout loses nothing. -/
theorem ofCells_injective {ds : List (Cell β)} (h : ofCells K P cs = ofCells K P ds) : cs = ds := by
  have hcell : ∀ {c d : Cell β}, c.ctrl K P = d.ctrl K P → c.value? = d.value? → c = d := by
    intro c d hctrl hvalue
    cases c <;> cases d <;> simp_all [H2]
  have hctrl : cs.map (Cell.ctrl K P) = ds.map (Cell.ctrl K P) :=
    append_cancel_right (congrArg Table.mCtrl h)
  have hslots : cs.map Cell.value? = ds.map Cell.value? := congrArg Table.mSlots h
  clear h
  induction cs generalizing ds with
  | nil => simpa using hslots.symm
  | cons c cs ih =>
    cases ds with
    | nil => simp at hslots
    | cons d ds =>
      simp only [map_cons, cons.injEq] at hctrl hslots
      rw [hcell hctrl.1 hslots.1, ih hctrl.2 hslots.2]

theorem readCtrl_ofCells (h : cs[i]? = some c) :
    (ofCells K P cs).readCtrl i = .ok (c.ctrl K P) := by
  simp [readCtrl, ctrl_ofCells h]

theorem slotAt_ofCells (h : cs[i]? = some (.full v)) : (ofCells K P cs).slotAt i = .ok v := by
  simp [slotAt, ofCells, h]

theorem slotAt_ofCells_inv (h : (ofCells K P cs).slotAt i = .ok v) : cs[i]? = some (.full v) := by
  cases hget : cs[i]? with
  | none => simp [slotAt, ofCells, hget] at h
  | some c =>
    cases c with
    | empty | deleted => simp [slotAt, ofCells, hget] at h
    | full w =>
      rw [slotAt_ofCells hget] at h
      cases h
      rfl

theorem iterator_ofCells_full (h : cs[i]? = some (.full v)) : (ofCells K P cs).iterator i = .ok i :=
  (wellFormed_ofCells cs).iterator_full (slots_ofCells_iff.mpr h)

theorem sentinel_ofCells (cs : List (Cell β)) : (ofCells K P cs).sentinel = .ok cs.length := by
  have hdrop : (ofCells K P cs).mCtrl.drop cs.length = [.kSentinel] := by
    simp [ofCells]
  simp [sentinel, iterator, hdrop, skipEmptyOrDeleted]

end Layout

end Table

/-! ### The probe path -/

/-- The slots a probe for `hash` visits in its first `capacity` rounds. -/
def ProbeSeq.positions : Nat → ProbeSeq → List Nat
  | 0, _ => []
  | n + 1, seq => seq.mPos :: positions n seq.next

def path (capacity hash : Nat) : List Nat :=
  (start hash (capacity - 1)).positions capacity

theorem ProbeSeq.positions_eq (a k i n : Nat) :
    positions n ⟨(a + tri i) % 2 ^ k, 2 ^ k - 1, i⟩ =
      (range' i n).map fun j => (a + tri j) % 2 ^ k := by
  induction n generalizing i with
  | zero => rfl
  | succ n ih =>
    have hnext : next ⟨(a + tri i) % 2 ^ k, 2 ^ k - 1, i⟩ =
        ⟨(a + tri (i + 1)) % 2 ^ k, 2 ^ k - 1, i + 1⟩ := by
      simp only [next, kWidth, and_two_pow_sub_one_eq_mod, tri_succ]
      congr 1
      rw [mod_add_mod, Nat.add_assoc]
    rw [range'_succ, map_cons, positions, hnext, ih]

theorem ProbeSeq.start_eq (k hash : Nat) :
    start hash (2 ^ k - 1) = ⟨(H1 hash + tri 0) % 2 ^ k, 2 ^ k - 1, 0⟩ := by
  simp [start, and_two_pow_sub_one_eq_mod]

/-- The path is the triangular offsets from the home slot. -/
theorem path_eq_offsets (k hash : Nat) : path (2 ^ k) hash = offsets (H1 hash) k (2 ^ k) := by
  rw [path, start_eq, positions_eq, offsets, range_eq_range']

theorem path_nodup (k hash : Nat) : (path (2 ^ k) hash).Nodup := by
  rw [path_eq_offsets]
  exact nodup_offsets _ _

theorem mem_path_iff {k hash p : Nat} : p ∈ path (2 ^ k) hash ↔ p < 2 ^ k := by
  rw [path_eq_offsets]
  exact ⟨mem_offsets_lt, mem_offsets⟩

/-- **A probe visits every slot once** in its first rounds, as many as there are slots: the offsets
are triangular numbers, which run through all residues of a power of two. -/
theorem path_visits_once (k hash : Nat) : (path (2 ^ k) hash).Nodup ∧
    ∀ slot, (path (2 ^ k) hash).count slot = if slot < 2 ^ k then 1 else 0 := by
  refine ⟨path_nodup k hash, fun slot => ?_⟩
  simp only [(path_nodup k hash).count, mem_path_iff]

/-- However long a probe goes on, it stays inside the table. -/
theorem positions_lt (k hash n : Nat) :
    ∀ p ∈ (start hash (2 ^ k - 1)).positions n, p < 2 ^ k := by
  intro p hp
  rw [start_eq, positions_eq, List.mem_map] at hp
  obtain ⟨j, -, rfl⟩ := hp
  exact mod_lt _ (Nat.two_pow_pos k)

/-! ### The probe over cells -/

/-- The probe loops of `find` and `find_or_prepare_insert`, over a list of slots
still to visit: the first deleted slot passed is remembered. -/
def scan (K : KeyHash κ) (P : Policy κ ν β) (cs : List (Cell β)) (k : κ) :
    List Nat → Option Nat → Option Table.Probe
  | [], _ => none
  | p :: ps, firstDeleted => match cs[p]? with
    | some (.full v) =>
      if K.eq k (P.key v) then some (.present p) else scan K P cs k ps firstDeleted
    | some .empty => some (.vacant (firstDeleted.getD p))
    | some .deleted => scan K P cs k ps (some (firstDeleted.getD p))
    | none => none

namespace Table

section Scan

variable {K : KeyHash κ} {P : Policy κ ν β}

variable {k : κ} {seq : ProbeSeq}

/-- The control byte filters nothing out that the key comparison would accept. -/
theorem H2_eq_of_eq (h : K.eq k (P.key v) = true) : H2 (K.hash k) = H2 (K.hash (P.key v)) := by
  rw [K.hash_eq _ _ h]

theorem findLoop_full (n : Nat) (hget : cs[seq.mPos]? = some (.full v)) :
    findLoop K P (ofCells K P cs) k (n + 1) seq =
      if K.eq k (P.key v) then .ok seq.mPos
      else findLoop K P (ofCells K P cs) k n seq.next := by
  have hne : isEmpty (H2 (K.hash (P.key v))) = false := by simp [isEmpty, H2]
  cases heq : K.eq k (P.key v) with
  | true =>
    simp [findLoop, readCtrl_ofCells hget, slotAt_ofCells hget, iterator_ofCells_full hget,
      H2_eq_of_eq heq, heq]
  | false =>
    simp only [findLoop, readCtrl_ofCells hget, slotAt_ofCells hget, Cell.ctrl_full, isFull_H2,
      heq, Bool.true_and, ok_bind, pure_eq_ok]
    split <;> simp [hne]

theorem findLoop_ofCells (n : Nat) (seq : ProbeSeq)
    (hlt : ∀ p ∈ seq.positions n, p < cs.length) (fd : Option Nat) :
    findLoop K P (ofCells K P cs) k n seq =
      match scan K P cs k (seq.positions n) fd with
      | none => .error .diverges
      | some (.present p) => .ok p
      | some (.vacant _) => .ok cs.length := by
  induction n generalizing seq fd with
  | zero => rfl
  | succ n ih =>
    obtain ⟨hp, hnext⟩ := forall_mem_cons.mp hlt
    obtain ⟨c, hget⟩ : ∃ c, cs[seq.mPos]? = some c := ⟨_, getElem?_eq_getElem hp⟩
    have hrest := ih seq.next hnext
    simp only [positions, scan, hget]
    cases c with
    | empty => simp [findLoop, readCtrl_ofCells hget, sentinel_ofCells]
    | deleted =>
      rw [← hrest]
      simp [findLoop, readCtrl_ofCells hget, isEmpty]
    | full v =>
      rw [findLoop_full n hget]
      cases heq : K.eq k (P.key v) with
      | true => simp [heq]
      | false => simpa [heq] using hrest fd

/-- A round of the insertion probe at a slot with an element. -/
theorem probeLoop_full (n fd : Nat) (hget : cs[seq.mPos]? = some (.full v)) :
    probeLoop K P (ofCells K P cs) k (n + 1) seq fd =
      if K.eq k (P.key v) then .ok (.present seq.mPos)
      else probeLoop K P (ofCells K P cs) k n seq.next fd := by
  cases heq : K.eq k (P.key v) with
  | true =>
    simp [probeLoop, readCtrl_ofCells hget, slotAt_ofCells hget, H2_eq_of_eq heq, heq]
  | false =>
    simp only [probeLoop, readCtrl_ofCells hget, slotAt_ofCells hget, Cell.ctrl_full, isFull_H2,
      heq, if_true, ok_bind, pure_eq_ok]
    split <;> simp

/-- `first_deleted == mCapacity` encodes "none passed yet". -/
theorem probeLoop_ofCells (n : Nat) (seq : ProbeSeq)
    (hlt : ∀ p ∈ seq.positions n, p < cs.length) (fd : Option Nat) (hfd : ∀ q ∈ fd, q < cs.length) :
    probeLoop K P (ofCells K P cs) k n seq (fd.getD cs.length) =
      match scan K P cs k (seq.positions n) fd with
      | none => .error .diverges
      | some r => .ok r := by
  induction n generalizing seq fd with
  | zero => rfl
  | succ n ih =>
    obtain ⟨hp, hnext⟩ := forall_mem_cons.mp hlt
    obtain ⟨c, hget⟩ : ∃ c, cs[seq.mPos]? = some c := ⟨_, getElem?_eq_getElem hp⟩
    simp only [positions, scan, hget]
    cases c with
    | empty =>
      cases fd with
      | none => simp [probeLoop, readCtrl_ofCells hget]
      | some q => simp [probeLoop, readCtrl_ofCells hget, (hfd q rfl).ne]
    | deleted =>
      have hseen : (if fd.getD cs.length = cs.length then seq.mPos else fd.getD cs.length) =
          (some (fd.getD seq.mPos)).getD cs.length := by
        cases fd with
        | none => simp
        | some q => simp [(hfd q rfl).ne]
      have hrest := ih seq.next hnext (some (fd.getD seq.mPos)) (by
        intro q hq
        cases fd with
        | none =>
          cases hq
          exact hp
        | some r =>
          cases hq
          exact hfd r rfl)
      rw [← hrest, ← hseen, probeLoop, readCtrl_ofCells hget]
      rfl
    | full v =>
      rw [probeLoop_full n _ hget]
      cases heq : K.eq k (P.key v) with
      | true => simp [heq]
      | false => simpa [heq] using ih seq.next hnext fd hfd

end Scan

end Table

/-! ### Sizes and slot updates -/

/-- The capacities `resize` asserts, `0` apart. -/
def PowerOfTwo (n : Nat) : Prop := ∃ k, n = 2 ^ k

namespace PowerOfTwo

variable (h : PowerOfTwo n)
include h

theorem pos : 0 < n := by
  obtain ⟨k, rfl⟩ := h
  exact Nat.two_pow_pos k

theorem path_nodup (hash : Nat) : (path n hash).Nodup := by
  obtain ⟨k, rfl⟩ := h
  exact RawHashSet.path_nodup k hash

theorem mem_path_iff {hash p : Nat} : p ∈ path n hash ↔ p < n := by
  obtain ⟨k, rfl⟩ := h
  exact RawHashSet.mem_path_iff

theorem positions_lt (hash rounds : Nat) :
    ∀ p ∈ (start hash (n - 1)).positions rounds, p < n := by
  obtain ⟨k, rfl⟩ := h
  exact RawHashSet.positions_lt k hash rounds

end PowerOfTwo

/-- The capacities tables have: powers of two, at least `kMinCapacity`. -/
def ValidCapacity (n : Nat) : Prop := ∃ k, 4 ≤ k ∧ n = 2 ^ k

section

variable (h : ValidCapacity n)
include h

theorem ValidCapacity.powerOfTwo : PowerOfTwo n := by
  obtain ⟨k, -, rfl⟩ := h
  exact ⟨k, rfl⟩

theorem ValidCapacity.le : kMinCapacity ≤ n := by
  obtain ⟨k, hk, rfl⟩ := h
  exact Nat.pow_le_pow_right (succ_pos 1) hk

theorem ValidCapacity.pos : 0 < n :=
  Nat.lt_of_lt_of_le (by decide) h.le

theorem ValidCapacity.double : ValidCapacity (n * 2) := by
  obtain ⟨k, hk, rfl⟩ := h
  exact ⟨k + 1, by omega, (pow_succ 2 k).symm⟩

omit h in
theorem validCapacity_min : ValidCapacity kMinCapacity := ⟨4, le_rfl, rfl⟩

/-- The threshold leaves room: a table at its threshold still has unused slots. -/
theorem ValidCapacity.threshold_lt : growthThreshold n < n := by
  have := h.le
  simp only [kMinCapacity] at this
  simp only [growthThreshold]
  omega

omit h in
theorem growthThreshold_mono {m : Nat} (h : m ≤ n) : growthThreshold m ≤ growthThreshold n := by
  simp only [growthThreshold]
  omega

/-- Growing makes room for at least one more element. -/
theorem ValidCapacity.threshold_double : growthThreshold n + 1 ≤ growthThreshold (n * 2) := by
  have := h.le
  simp only [kMinCapacity] at this
  simp only [growthThreshold]
  omega

end

/-- Filling a slot without an element adds its element. -/
theorem values_set_full {c : Cell β} (h : cs[i]? = some c)
    (hc : c.value? = none) (v : β) : (values (cs.set i (.full v))).Perm (v :: values cs) := by
  obtain ⟨hlt, hget⟩ := List.getElem?_eq_some_iff.mp h
  have hcs : cs = cs.take i ++ c :: cs.drop (i + 1) := by
    rw [← hget, ← drop_eq_getElem_cons hlt, take_append_drop]
  rw [set_eq_take_append_cons_drop, if_pos hlt]
  conv_rhs => rw [hcs]
  rw [values_append, values_append, values_cons, values_cons, hc]
  exact perm_middle

theorem values_set_of_full (h : cs[i]? = some (.full v))
    {c : Cell β} (hc : c.value? = none) : (v :: values (cs.set i c)).Perm (values cs) := by
  obtain ⟨hlt, hget⟩ := List.getElem?_eq_some_iff.mp h
  have hcs : cs = cs.take i ++ .full v :: cs.drop (i + 1) := by
    rw [← hget, ← drop_eq_getElem_cons hlt, take_append_drop]
  rw [set_eq_take_append_cons_drop, if_pos hlt]
  conv_rhs => rw [hcs]
  rw [values_append, values_append, values_cons, hc]
  exact perm_middle.symm

theorem values_set_replace (h : cs[i]? = some (.full v))
    (w : β) : ∃ l r, values cs = l ++ v :: r ∧ values (cs.set i (.full w)) = l ++ w :: r := by
  obtain ⟨hlt, hget⟩ := List.getElem?_eq_some_iff.mp h
  have hcs : cs = cs.take i ++ .full v :: cs.drop (i + 1) := by
    rw [← hget, ← drop_eq_getElem_cons hlt, take_append_drop]
  refine ⟨values (cs.take i), values (cs.drop (i + 1)), ?_, ?_⟩
  · conv_lhs => rw [hcs]
    rw [values_append]
    rfl
  · rw [set_eq_take_append_cons_drop, if_pos hlt, values_append]
    rfl

/-! ### The operations on a laid-out table -/

/-- The probe for `k` along its whole path. -/
def scanFor (K : KeyHash κ) (P : Policy κ ν β) (cs : List (Cell β)) (k : κ) : Option Table.Probe :=
  scan K P cs k (path cs.length (K.hash k)) none

/-- What `erase_at` leaves in slot `i`: an unused slot when the slot after it is
unused, a tombstone otherwise. -/
def erasedCell (cs : List (Cell β)) (i : Nat) : Cell β :=
  match cs[(i + 1) % cs.length]? with
  | some .empty => .empty
  | _ => .deleted

@[simp] theorem value?_erasedCell (cs : List (Cell β)) (i : Nat) :
    (erasedCell cs i).value? = none := by
  unfold erasedCell
  split <;> rfl

namespace Table

section Equations

variable {K : KeyHash κ} {P : Policy κ ν β}

theorem find_ofCells (hcap : PowerOfTwo cs.length) (k : κ) : find K P (ofCells K P cs) k =
      match scanFor K P cs k with
      | none => .error .diverges
      | some (.present p) => .ok p
      | some (.vacant _) => .ok cs.length := by
  rw [find, ofCells_mCapacity, if_neg hcap.pos.ne']
  exact findLoop_ofCells _ _ (fun p hp => hcap.mem_path_iff.mp hp) none

theorem probe_ofCells (hcap : PowerOfTwo cs.length) (k : κ) : probe K P (ofCells K P cs) k =
      match scanFor K P cs k with
      | none => .error .diverges
      | some r => .ok r :=
  probeLoop_ofCells _ _ (fun p hp => hcap.mem_path_iff.mp hp) none (by simp)

variable {q : Nat} {k : κ}

/-- Writing the control byte and the element of a free slot. -/
theorem constructSlot_ofCells {c : Cell β} (hq : cs[q]? = some c) (hc : c.value? = none) (v : β) :
    ({ ofCells K P cs with
        mCtrl := (ofCells K P cs).mCtrl.set q (H2 (K.hash (P.key v))) } : Table β).constructSlot
          q v =
      ofCells K P (cs.set q (.full v)) := by
  have hlt : q < cs.length := (List.getElem?_eq_some_iff.mp hq).1
  have hsize := (values_set_full hq hc v).length_eq
  simp [constructSlot, ofCells, set_append_left, hlt, map_set, hsize]

section

variable (hcap : PowerOfTwo cs.length)

include hcap

theorem prepare_present {p : Nat} (h : scanFor K P cs k = some (.present p)) (depth : Nat) :
    findOrPrepareInsertAt K P (depth + 1) (ofCells K P cs) k = .ok (ofCells K P cs, p, false) := by
  simp [findOrPrepareInsertAt, probe_ofCells hcap, h]

theorem prepare_none (h : scanFor K P cs k = none) (depth : Nat) :
    findOrPrepareInsertAt K P depth (ofCells K P cs) k = .error .diverges := by
  cases depth with
  | zero => rfl
  | succ depth => simp [findOrPrepareInsertAt, probe_ofCells hcap, h]

variable (h : scanFor K P cs k = some (.vacant q))
include h

theorem prepare_vacant (hroom : (values cs).length + 1 ≤ growthThreshold cs.length) (depth : Nat) :
    findOrPrepareInsertAt K P (depth + 1) (ofCells K P cs) k =
      .ok ({ ofCells K P cs with
        mCtrl := (ofCells K P cs).mCtrl.set q (H2 (K.hash k)) }, q, true) := by
  simp [findOrPrepareInsertAt, probe_ofCells hcap, h, Nat.not_lt.mpr hroom]

theorem prepare_grow (hroom : growthThreshold cs.length < (values cs).length + 1) (depth : Nat) :
    findOrPrepareInsertAt K P (depth + 1) (ofCells K P cs) k =
      (resizeWith P (findOrPrepareInsertAt K P depth) (ofCells K P cs) (nextCapacity cs.length) >>=
        fun t => findOrPrepareInsertAt K P depth t k) := by
  simp [findOrPrepareInsertAt, probe_ofCells hcap, h, hroom]

end

theorem eraseAt_ofCells (hcap : ValidCapacity cs.length) {i : Nat} {v : β}
    (hi : cs[i]? = some (.full v)) :
    (ofCells K P cs).eraseAt i = .ok (ofCells K P (cs.set i (erasedCell cs i))) := by
  have hlt : i < cs.length := (List.getElem?_eq_some_iff.mp hi).1
  have hnext : (i + 1) % cs.length < cs.length := mod_lt _ hcap.pos
  have hmask : (i + 1) &&& (cs.length - 1) = (i + 1) % cs.length := by
    obtain ⟨k, -, hk⟩ := hcap
    rw [hk, and_two_pow_sub_one_eq_mod]
  have hget : cs[(i + 1) % cs.length]? = some cs[(i + 1) % cs.length] :=
    getElem?_eq_getElem hnext
  have hctrl : (if isEmpty (cs[(i + 1) % cs.length].ctrl K P) then Ctrl.kEmpty else .kDeleted) =
      (erasedCell cs i).ctrl K P := by
    rw [erasedCell, hget]
    cases cs[(i + 1) % cs.length] <;> simp [isEmpty, H2]
  have hsize : (values cs).length - 1 = (values (cs.set i (erasedCell cs i))).length := by
    have := (values_set_of_full hi (value?_erasedCell cs i)).length_eq
    rw [← this, length_cons, Nat.add_sub_cancel]
  simp only [eraseAt, ofCells_mCapacity, hmask, readCtrl_ofCells hget, hctrl, ok_bind, pure_eq_ok]
  simp [ofCells, set_append_left, hlt, map_set, hsize]

theorem clear_ofCells (hcap : ValidCapacity cs.length) :
    (ofCells K P cs).clear = ofCells K P (replicate cs.length .empty) := by
  have hslots : zipWith (fun c s => if isFull c then none else s)
      (ofCells K P cs).mCtrl (ofCells K P cs).mSlots =
        replicate cs.length (none : Option β) := by
    clear hcap
    induction cs with
    | nil => simp [ofCells]
    | cons c cs ih =>
      simp only [ofCells, map_cons, cons_append, zipWith_cons_cons,
        length_cons, replicate_succ] at ih ⊢
      rw [ih]
      cases c <;> simp
  simp only [clear, ofCells_mCapacity, if_neg hcap.pos.ne', hslots]
  simp [ofCells]

end Equations

/-! #### Iteration -/

section Iteration

variable {K : KeyHash κ} {P : Policy κ ν β}

/-- Iteration sees the elements in slot order and stops at the sentinel. -/
theorem elements_ofCells {cs : List (Cell β)} (hcap : PowerOfTwo cs.length) :
    (ofCells K P cs).elements = .ok (values cs) := by
  rw [(wellFormed_ofCells cs).elements_eq hcap.pos.ne', contents_ofCells]

end Iteration

end Table

end CxxKit.RawHashSet
