import CxxKit.Containers.ProbeChains

/-!
Insertion, growth and copies, over cells.

`insertWith_ofCells` computes one `unchecked_insert` into a table with room.  A
rebuild (`resize`, copies) is a fold of such inserts; `Rebuilds` collects what is
known of one: what it has built if it succeeds (`fold_inv`), and that it succeeds
when the keys are pairwise different (`fold_ok`).  `Emplaced` lists the ways the
insertion of one element can end.
-/

namespace CxxKit.RawHashSet

open List Table

variable {κ ν β : Type} {K : KeyHash κ} {P : Policy κ ν β} {cs : List (Cell β)}

/-- No two elements of the list have equal keys. -/
def KeysDistinct (K : KeyHash κ) (P : Policy κ ν β) (vs : List β) : Prop :=
  vs.Pairwise fun v w => K.eq (P.key v) (P.key w) = false

theorem eq_comm_false {a b : κ} (h : K.eq a b = false) : K.eq b a = false := by
  rw [Bool.eq_false_iff] at h ⊢
  exact fun hba => h (K.eq_symm _ _ hba)

variable {vs : List β} {q cap : Nat} {t : Table β} {v : β}

section

variable (depth : Nat)

theorem KeysDistinct.perm {ws : List β} (h : vs.Perm ws) (hd : KeysDistinct K P vs) :
    KeysDistinct K P ws :=
  (h.pairwise_iff fun hab => eq_comm_false hab).mp hd

/-- Distinct slots hold distinct keys. -/
theorem Distinct.keysDistinct (h : Distinct K P cs) : KeysDistinct K P (values cs) := by
  rw [KeysDistinct, values, pairwise_filterMap, pairwise_iff_getElem]
  intro i j hi hj hij v hv w hw
  rw [Bool.eq_false_iff]
  intro heq
  have hslot : ∀ {n : Nat} (hn : n < cs.length) {u : β}, cs[n].value? = some u →
      cs[n]? = some (.full u) := by
    intro n hn u hu
    rw [getElem?_eq_getElem hn]
    cases hc : cs[n] with
    | empty | deleted => simp [hc] at hu
    | full x =>
      rw [hc] at hu
      cases hu
      rfl
  exact absurd (h i j v w (hslot hi hv) (hslot hj hw) heq) hij.ne

/-! ### One insert into a table with room -/

theorem insertWith_ofCells (hcap : PowerOfTwo cs.length) (v : β)
    (hroom : (values cs).length + 1 ≤ growthThreshold cs.length) (depth : Nat) :
    uncheckedInsertWith P (findOrPrepareInsertAt K P (depth + 1)) (ofCells K P cs) v =
      match scanFor K P cs (P.key v) with
      | none => .error .diverges
      | some (.present _) => .error .assertFailed
      | some (.vacant q) => .ok (ofCells K P (cs.set q (.full v))) := by
  cases hscan : scanFor K P cs (P.key v) with
  | none => simp [uncheckedInsertWith, prepare_none hcap hscan]
  | some r =>
    cases r with
    | present p => simp [uncheckedInsertWith, prepare_present hcap hscan]
    | vacant q =>
      obtain ⟨c, hq, hc⟩ := scanFor_vacant_cell hcap hscan
      dsimp only
      rw [← constructSlot_ofCells hq hc v]
      simp [uncheckedInsertWith, prepare_vacant hcap hscan hroom]

/-- Filling the slot a probe offers adds one element. -/
theorem values_fill (hcap : PowerOfTwo cs.length) {k : κ} (h : scanFor K P cs k = some (.vacant q))
    (v : β) : (values (cs.set q (.full v))).Perm (v :: values cs) := by
  obtain ⟨c, hq, hc⟩ := scanFor_vacant_cell hcap h
  exact values_set_full hq hc v

/-! ### Rebuilding -/

theorem fold_inv (vs : List β)
    (hcap : PowerOfTwo cs.length) (htomb : NoTombstones cs)
    (hroom : (values cs).length + vs.length ≤ growthThreshold cs.length)
    (h : vs.foldlM (uncheckedInsertWith P (findOrPrepareInsertAt K P (depth + 1)))
      (ofCells K P cs) = .ok t) :
    ∃ ds, t = ofCells K P ds ∧ ds.length = cs.length ∧ NoTombstones ds ∧
      (values ds).Perm (vs ++ values cs) := by
  induction vs generalizing cs with
  | nil =>
    cases h
    exact ⟨cs, rfl, rfl, htomb, .refl _⟩
  | cons v vs ih =>
    rw [foldlM_cons, insertWith_ofCells hcap v (by simp at hroom; omega)] at h
    cases hscan : scanFor K P cs (P.key v) with
    | none => simp [hscan] at h
    | some r =>
      cases r with
      | present p => simp [hscan] at h
      | vacant q =>
        simp only [hscan, ok_bind] at h
        have hvals := values_fill hcap hscan v
        obtain ⟨ds, rfl, hlen, hds, hperm⟩ := ih (by simpa using hcap)
          (htomb.set_full q v) (by
            rw [hvals.length_eq]
            simp at hroom ⊢
            omega) h
        refine ⟨ds, rfl, by simpa using hlen, hds, hperm.trans ?_⟩
        exact (List.Perm.append_left vs hvals).trans perm_middle

theorem growthThreshold_le (capacity : Nat) : growthThreshold capacity ≤ capacity :=
  Nat.sub_le ..

theorem fold_ok (vs : List β) (hcap : PowerOfTwo cs.length) (hreach : Reached K P cs)
    (hdist : Distinct K P cs) (htomb : NoTombstones cs)
    (hroom : (values cs).length + vs.length ≤ growthThreshold cs.length)
    (hkeys : KeysDistinct K P (vs ++ values cs)) :
    ∃ ds, vs.foldlM (uncheckedInsertWith P (findOrPrepareInsertAt K P (depth + 1)))
      (ofCells K P cs) = .ok (ofCells K P ds) ∧ Reached K P ds ∧ Distinct K P ds := by
  induction vs generalizing cs with
  | nil => exact ⟨cs, rfl, hreach, hdist⟩
  | cons v vs ih =>
    obtain ⟨hv, hrest⟩ := pairwise_cons.mp hkeys
    have habsent : ∀ w ∈ values cs, K.eq (P.key v) (P.key w) = false :=
      fun w hw => hv w (mem_append_right _ hw)
    -- without tombstones, and with an element still to come, some slot is unused
    have hunused : 0 < unused cs := by
      have := htomb.unused_add
      have := growthThreshold_le cs.length
      simp at hroom
      omega
    obtain ⟨e, he⟩ := unused_pos_iff.mp hunused
    obtain ⟨q, hscan⟩ := scanFor_vacant hcap he habsent
    have hvals := values_fill hcap hscan v
    have hchain := (scanFor_vacant_inv hcap hscan).2 v (K.eq_refl _)
    have hkeys' : KeysDistinct K P (vs ++ values (cs.set q (.full v))) := by
      refine KeysDistinct.perm ?_ hkeys
      exact ((List.Perm.append_left vs hvals).trans perm_middle).symm
    obtain ⟨ds, hds, hkept⟩ := ih (by simpa using hcap) (hreach.set_full hchain)
      (hdist.set_full q habsent) (htomb.set_full q v) (by
        rw [hvals.length_eq]
        simp at hroom ⊢
        omega) hkeys'
    refine ⟨ds, ?_, hkept⟩
    rw [foldlM_cons, insertWith_ofCells hcap v (by simp at hroom; omega), hscan]
    exact hds

/-- Sizes of the tables that operations produce. -/
structure Sized (cs : List (Cell β)) : Prop where
  capacity : ValidCapacity cs.length
  size : (values cs).length ≤ growthThreshold cs.length

theorem NoTombstones.unused_pos (h : NoTombstones cs) (hs : Sized cs) : 0 < unused cs := by
  have := h.unused_add
  have := hs.size
  have := hs.capacity.threshold_lt
  omega

/-- The computation `r` builds a table of capacity `cap` anew from the elements
`vs`. -/
structure Rebuilds (K : KeyHash κ) (P : Policy κ ν β) (cap : Nat)
    (r : Except Fault (Table β)) (vs : List β) : Prop where
  capacity : ValidCapacity cap
  room : vs.length ≤ growthThreshold cap
  inv : ∀ t, r = .ok t → ∃ ds, t = ofCells K P ds ∧ ds.length = cap ∧ NoTombstones ds ∧
    (values ds).Perm vs
  ok : KeysDistinct K P vs → ∃ ds, r = .ok (ofCells K P ds) ∧ Chained K P ds

theorem Rebuilds.built {r : Except Fault (Table β)} (h : Rebuilds K P cap r vs) (ht : r = .ok t) :
    ∃ ds, t = ofCells K P ds ∧ ds.length = cap ∧ NoTombstones ds ∧ (values ds).Perm vs ∧
      (KeysDistinct K P vs → Chained K P ds) := by
  obtain ⟨ds, rfl, hlen, htomb, hperm⟩ := h.inv t ht
  refine ⟨ds, rfl, hlen, htomb, hperm, fun hkeys => ?_⟩
  obtain ⟨es, hes, hch⟩ := h.ok hkeys
  rw [ht] at hes
  rwa [ofCells_injective (Except.ok.inj hes)]

/-- Inserting elements with pairwise different keys into fresh storage of any
capacity that has room for them. -/
theorem fold_fresh (hcap : PowerOfTwo cap) (hroom : vs.length ≤ growthThreshold cap)
    (hkeys : KeysDistinct K P vs) :
    ∃ ds, vs.foldlM (uncheckedInsertWith P (findOrPrepareInsertAt K P (depth + 1))) (fresh cap) =
        .ok (ofCells K P ds) ∧ ds.length = cap ∧ NoTombstones ds ∧ (values ds).Perm vs ∧
      Reached K P ds ∧ Distinct K P ds := by
  have hlen : (List.replicate cap (Cell.empty : Cell β)).length = cap := length_replicate
  have hroom' : (values (List.replicate cap (Cell.empty : Cell β))).length + vs.length ≤
      growthThreshold (List.replicate cap (Cell.empty : Cell β)).length := by simpa using hroom
  have hcap' : PowerOfTwo (List.replicate cap (Cell.empty : Cell β)).length := by rwa [hlen]
  rw [fresh_eq_ofCells]
  obtain ⟨ds, hds, hreach, hdist⟩ := fold_ok depth vs hcap'
    (reached_replicate cap) (distinct_replicate cap) (noTombstones_replicate cap) hroom'
    (by simpa using hkeys)
  obtain ⟨es, hes, hlen', htomb, hperm⟩ := fold_inv depth vs hcap' (noTombstones_replicate cap)
    hroom' hds
  cases ofCells_injective hes
  exact ⟨ds, hds, hlen'.trans hlen, htomb, by simpa using hperm, hreach, hdist⟩

theorem fold_rebuilds (hcap : ValidCapacity cap) (hroom : vs.length ≤ growthThreshold cap) :
    Rebuilds K P cap (vs.foldlM (uncheckedInsertWith P (findOrPrepareInsertAt K P (depth + 1)))
      (fresh cap)) vs where
  capacity := hcap
  room := hroom
  inv := by
    intro t h
    rw [fresh_eq_ofCells] at h
    obtain ⟨ds, rfl, hlen, htomb, hperm⟩ := fold_inv depth vs (by simpa using hcap.powerOfTwo)
      (noTombstones_replicate cap) (by simpa using hroom) h
    exact ⟨ds, rfl, by simpa using hlen, htomb, by simpa using hperm⟩
  ok := by
    intro hkeys
    obtain ⟨ds, hds, hlen, -, -, hreach, hdist⟩ := fold_fresh depth hcap.powerOfTwo hroom hkeys
    exact ⟨ds, hds, hlen ▸ hcap, hreach, hdist⟩

theorem resizeWith_rebuilds (hcap : ValidCapacity cap)
    (hroom : (values cs).length ≤ growthThreshold cap) :
    Rebuilds K P cap (resizeWith P (findOrPrepareInsertAt K P (depth + 1)) (ofCells K P cs) cap)
      (values cs) := by
  rw [(wellFormed_ofCells cs).resizeWith_eq, contents_ofCells]
  exact fold_rebuilds depth hcap hroom

end

/-! ### The ways an insertion ends -/

/-- How the insertion of `v` into a table with the cells `cs` and room for one
more element can end: the new cells, the slot of the returned iterator, and
whether `v` was inserted. -/
inductive Emplaced (K : KeyHash κ) (P : Policy κ ν β) (cs : List (Cell β)) (v : β) :
    List (Cell β) → Nat → Bool → Prop where
  | present {p : Nat} (found : scanFor K P cs (P.key v) = some (.present p)) :
      Emplaced K P cs v cs p false
  | filled {q : Nat} (free : scanFor K P cs (P.key v) = some (.vacant q))
      (room : (values cs).length + 1 ≤ growthThreshold cs.length) :
      Emplaced K P cs v (cs.set q (.full v)) q true

/-- `find_or_prepare_insert` followed by the construction of the element and of
the iterator to it. -/
def emplaceWith (K : KeyHash κ) (P : Policy κ ν β) (depth : Nat) (t : Table β) (v : β) :
    Except Fault (Table β × Nat × Bool) := do
  let (t, i, new) ← findOrPrepareInsertAt K P depth t (P.key v)
  let t := if new then t.constructSlot i v else t
  let it ← t.iterator i
  return (t, it, new)

theorem emplaceImpl_eq (t : Table β) (v : β) : emplaceImpl K P t v =
      (if t.mCapacity = 0 then reserve K P t kMinCapacity else .ok t).bind
        fun t => emplaceWith K P 2 t v := by
  rw [emplaceImpl]
  split <;> rfl

section

variable (hcap : PowerOfTwo cs.length)

include hcap

theorem emplaceWith_none (h : scanFor K P cs (P.key v) = none) (depth : Nat) :
    emplaceWith K P depth (ofCells K P cs) v = .error .diverges := by
  simp [emplaceWith, prepare_none hcap h]

theorem emplaceWith_present {p : Nat}
    (h : scanFor K P cs (P.key v) = some (.present p)) (depth : Nat) :
    emplaceWith K P (depth + 1) (ofCells K P cs) v = .ok (ofCells K P cs, p, false) := by
  obtain ⟨w, hw, -⟩ := scan_present_inv h
  simp [emplaceWith, prepare_present hcap h, iterator_ofCells_full hw]

theorem emplaceWith_filled (h : scanFor K P cs (P.key v) = some (.vacant q))
    (hroom : (values cs).length + 1 ≤ growthThreshold cs.length) (depth : Nat) :
    emplaceWith K P (depth + 1) (ofCells K P cs) v =
      .ok (ofCells K P (cs.set q (.full v)), q, true) := by
  obtain ⟨c, hq, hc⟩ := scanFor_vacant_cell hcap h
  have hlt : q < cs.length := (List.getElem?_eq_some_iff.mp hq).1
  have hit := iterator_ofCells_full (K := K) (P := P)
    (getElem?_set_self (a := Cell.full v) hlt)
  simp only [emplaceWith, prepare_vacant hcap h hroom, if_true, constructSlot_ofCells hq hc v,
    hit, ok_bind, pure_eq_ok]

theorem emplaceWith_grow (h : scanFor K P cs (P.key v) = some (.vacant q))
    (hroom : growthThreshold cs.length < (values cs).length + 1) (depth : Nat) :
    emplaceWith K P (depth + 1) (ofCells K P cs) v =
      (resizeWith P (findOrPrepareInsertAt K P depth) (ofCells K P cs) (cs.length * 2)).bind
        fun t => emplaceWith K P depth t v := by
  have hnext : nextCapacity cs.length = cs.length * 2 := if_neg hcap.pos.ne'
  rw [emplaceWith, prepare_grow hcap h hroom, hnext]
  cases resizeWith P (findOrPrepareInsertAt K P depth) (ofCells K P cs) (cs.length * 2) <;> rfl

variable (hroom : (values cs).length + 1 ≤ growthThreshold cs.length)
include hroom

theorem emplaceWith_inv {it : Nat} {new : Bool} {depth : Nat}
    (h : emplaceWith K P (depth + 1) (ofCells K P cs) v = .ok (t, it, new)) :
    ∃ ds, t = ofCells K P ds ∧ Emplaced K P cs v ds it new := by
  cases hscan : scanFor K P cs (P.key v) with
  | none =>
    rw [emplaceWith_none hcap hscan] at h
    cases h
  | some r =>
    cases r with
    | present p =>
      rw [emplaceWith_present hcap hscan] at h
      cases h
      exact ⟨cs, rfl, .present hscan⟩
    | vacant q =>
      rw [emplaceWith_filled hcap hscan hroom] at h
      cases h
      exact ⟨_, rfl, .filled hscan hroom⟩

/-- A table with an unused slot and room takes any element. -/
theorem emplaceWith_ok (hunused : 0 < unused cs) (v : β) (depth : Nat) : ∃ ds it new,
      emplaceWith K P (depth + 1) (ofCells K P cs) v = .ok (ofCells K P ds, it, new) := by
  obtain ⟨r, hscan⟩ := scanFor_isSome hcap hunused (P.key v)
  cases r with
  | present p => exact ⟨_, _, _, emplaceWith_present hcap hscan depth⟩
  | vacant q => exact ⟨_, _, _, emplaceWith_filled hcap hscan hroom depth⟩

end

end CxxKit.RawHashSet
