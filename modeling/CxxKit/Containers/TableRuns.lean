import CxxKit.Containers.TableOps

/-!
Runs of operations on a family of tables: what every table of every run looks
like (`Laid`), and when the probe loops are sure to stop.

A probe stops at an unused control byte.  Erasing returns few of them, since it
mostly leaves tombstones, and the growth check of `find_or_prepare_insert` counts
elements only, so an insertion may take the last unused byte; from then on a probe
for an absent key never stops.  `probes_stop_iff` says that this is the only way.
-/

namespace CxxKit.RawHashSet

open Cell Family Function List Option Table

variable {κ ν β : Type} {K : KeyHash κ} {P : Policy κ ν β}

/-! ### What one operation produces -/

/-- The handle and the element of an operation that inserts. -/
def Op.inserts (P : Policy κ ν β) : Op κ ν β → Option (Nat × β)
  | .insert a v => some (a, v)
  | .emplace a v => some (a, v)
  | .subscript a k => some (a, P.construct k)
  | .subscriptSet a k _ => some (a, P.construct k)
  | _ => none

/-- The tables of the family after an operation, by how they came about. -/
inductive Produced (K : KeyHash κ) (P : Policy κ ν β) (s : Family β) (op : Op κ ν β) :
    Table β → Prop where
  | kept (c : Nat) : Produced K P s op (s c)
  | blank : Produced K P s op unallocated
  | rebuilt {cs : List (Cell β)} (sized : Sized cs) (tomb : NoTombstones cs) :
      Produced K P s op (ofCells K P cs)
  | emplaced {a : Nat} {v : β} {base ds : List (Cell β)} {it : Nat} {new : Bool}
      (inserts : op.inserts P = some (a, v)) (prepared : Prepared K P (s a) base)
      (emplaced : Emplaced K P base v ds it new) : Produced K P s op (ofCells K P ds)
  | assigned {a : Nat} {v w x : β} {base ds : List (Cell β)} {it : Nat} {new : Bool}
      (inserts : op.inserts P = some (a, v)) (prepared : Prepared K P (s a) base)
      (emplaced : Emplaced K P base v ds it new) (slot : ds[it]? = some (.full w)) :
      Produced K P s op (ofCells K P (ds.set it (.full x)))
  | erased {a i : Nat} {v : β} {cs : List (Cell β)} (table : s a = ofCells K P cs)
      (sized : Sized cs) (slot : cs[i]? = some (.full v)) :
      Produced K P s op (ofCells K P (cs.set i (erasedCell cs i)))

variable {cs : List (Cell β)} {v : β}

/-- Assigning through the reference of an element keeps its key, so the control
byte stays right. -/
theorem setSlot_ofCells {i : Nat} {w : β} (h : cs[i]? = some (.full v)) (hkey : P.key w = P.key v) :
    ({ ofCells K P cs with mSlots := (ofCells K P cs).mSlots.set i (some w) } : Table β) =
      ofCells K P (cs.set i (.full w)) := by
  obtain ⟨hlt, hget⟩ := List.getElem?_eq_some_iff.mp h
  obtain ⟨l, r, hold, hnew⟩ := values_set_replace h w
  have hctrl : (cs.map (ctrl K P)).set i (H2 (K.hash (P.key w))) = cs.map (ctrl K P) := by
    have hself : cs.set i (.full v) = cs := by
      rw [← hget]
      exact set_getElem_self hlt
    rw [hkey, ← ctrl_full, ← map_set, hself]
  simp [ofCells, map_set, hold, hnew, hctrl]

section Produces

variable {s : Family β} {op : Op κ ν β}

variable {t u : Table β} {a i : Nat} {s' : Family β} {ans : Answer β} {r : Except Fault (Table β)}
  {vs : List β}

theorem Rebuilds.produced {cap : Nat} (h : Rebuilds K P cap r vs) (ht : r = .ok t) :
    Produced K P s op t := by
  obtain ⟨ds, rfl, hlen, htomb, hperm⟩ := h.inv t ht
  refine .rebuilt ⟨hlen ▸ h.capacity, ?_⟩ htomb
  rw [hperm.length_eq, hlen]
  exact h.room

/-- A call that hands a table on or rebuilds one. -/
theorem produced_of_cases (hr : r = .ok u ∨ ∃ cap, Rebuilds K P cap r vs) (hu : Produced K P s op u)
    (ht : r = .ok t) : Produced K P s op t := by
  obtain hres | ⟨cap, hreb⟩ := hr
  · cases hres.symm.trans ht
    exact hu
  · exact hreb.produced ht

/-- An update of one handle produces what it puts there. -/
theorem produced_update (ht : Produced K P s op t) (c : Nat) :
    Produced K P s op (update s a t c) := by
  by_cases hca : c = a
  · subst hca
    simpa using ht
  · rw [update_of_ne hca]
    exact .kept c

theorem produced_update₂ {b : Nat} (ht : Produced K P s op t) (hu : Produced K P s op u) (c : Nat) :
    Produced K P s op (update (update s a t) b u c) := by
  by_cases hcb : c = b
  · subst hcb
    simpa using hu
  · rw [update_of_ne hcb]
    exact produced_update ht c

theorem clear_produced (h : Laid K P t) : Produced K P s op t.clear := by
  obtain ⟨-, hclear⟩ | ⟨cap, hcap, -, hclear⟩ := clear_cases h
  · rw [hclear]
    exact .blank
  · rw [hclear]
    exact (fresh_rebuilds hcap).produced rfl

theorem eraseAt_produced (h : Laid K P (s a))
    (hslot : (s a).slotAt i = .ok v) (ht : (s a).eraseAt i = .ok t) : Produced K P s op t := by
  generalize hsa : s a = u at h hslot ht
  cases h with
  | unallocated => cases hslot
  | @cells cs sized =>
    have hget : cs[i]? = some (.full v) := slotAt_ofCells_inv hslot
    rw [eraseAt_ofCells sized.capacity hget] at ht
    cases ht
    exact .erased hsa sized hget

theorem erase_produced {k : κ} {n : Nat} (h : Laid K P (s a))
    (ht : (s a).erase K P k = .ok (t, n)) : Produced K P s op t := by
  generalize hsa : s a = u at h ht
  cases h with
  | unallocated => cases ht
  | @cells cs sized =>
    obtain ⟨-, hfind⟩ | ⟨p, v, -, hp, -, hfind⟩ | ⟨q, -, hfind⟩ :=
      find_cases sized.capacity.powerOfTwo k
    · obtain ⟨it, hit, -⟩ := bind_eq_ok ht
      rw [hfind] at hit
      cases hit
    · rw [erase_present sized.capacity hfind hp] at ht
      cases ht
      exact .erased hsa sized hp
    · rw [erase_absent hfind] at ht
      cases ht
      rw [← hsa]
      exact .kept a

/-- The operations that insert: `emplace_impl`, for `operator[]` possibly followed
by an assignment through the returned reference. -/
theorem step_inserts
    (hins : op.inserts P = some (a, v)) (hstep : step K P s op = .ok (s', ans)) :
    ∃ t it new w, (s a).emplaceImpl K P v = .ok (t, it, new) ∧ t.slotAt it = .ok w ∧
      (s' = update s a t ∨ ∃ x, s' = update s a
        { t with mSlots := t.mSlots.set it (some (P.setMapped w x)) }) := by
  cases op with
  | insert b u | emplace b u | subscript b k =>
    cases hins
    obtain ⟨⟨t, it, new⟩, ht, hstep⟩ := bind_eq_ok hstep
    obtain ⟨w, hw, hstep⟩ := bind_eq_ok hstep
    cases hstep
    exact ⟨t, it, new, w, ht, hw, .inl rfl⟩
  | subscriptSet b k x =>
    cases hins
    obtain ⟨⟨t, it, new⟩, ht, hstep⟩ := bind_eq_ok hstep
    obtain ⟨w, hw, hstep⟩ := bind_eq_ok hstep
    cases hstep
    exact ⟨t, it, new, w, ht, hw, .inr ⟨x, rfl⟩⟩
  | _ => cases hins

theorem inserts_produced (h : ∀ c, Laid K P (s c)) (hins : op.inserts P = some (a, v))
    (hstep : step K P s op = .ok (s', ans)) (c : Nat) : Produced K P s op (s' c) := by
  obtain ⟨t, it, new, w, ht, hw, hs'⟩ := step_inserts hins hstep
  obtain ⟨base, ds, hprep, hemp, rfl⟩ := emplaceImpl_inv (h a) ht
  obtain rfl | ⟨x, rfl⟩ := hs'
  · exact produced_update (.emplaced hins hprep hemp) c
  · have hslot := slotAt_ofCells_inv hw
    rw [setSlot_ofCells hslot (P.key_setMapped w x)]
    exact produced_update (.assigned hins hprep hemp hslot) c

theorem step_produced (h : ∀ c, Laid K P (s c))
    (hstep : step K P s op = .ok (s', ans)) (c : Nat) : Produced K P s op (s' c) := by
  cases op with
  | construct a hint =>
    obtain ⟨t, ht, hstep⟩ := bind_eq_ok hstep
    cases hstep
    exact produced_update (produced_of_cases (ofHint_cases hint) .blank ht) c
  | insert a v | emplace a v | subscript a k => exact inserts_produced h rfl hstep c
  | subscriptSet a k x => exact inserts_produced h rfl hstep c
  | find a k =>
    obtain ⟨it, hit, hstep⟩ := bind_eq_ok hstep
    obtain ⟨w, hw, hstep⟩ := bind_eq_ok hstep
    cases hstep
    exact .kept c
  | contains a k | count a k =>
    obtain ⟨b, hb, hstep⟩ := bind_eq_ok hstep
    cases hstep
    exact .kept c
  | size a =>
    cases hstep
    exact .kept c
  | erase a k =>
    obtain ⟨⟨t, n⟩, ht, hstep⟩ := bind_eq_ok hstep
    cases hstep
    exact produced_update (erase_produced (h a) ht) c
  | eraseIter a it =>
    obtain ⟨v, hv, hstep⟩ := bind_eq_ok hstep
    obtain ⟨t, ht, hstep⟩ := bind_eq_ok hstep
    cases hstep
    exact produced_update (eraseAt_produced (h a) hv ht) c
  | iterate a =>
    obtain ⟨vs, hvs, hstep⟩ := bind_eq_ok hstep
    cases hstep
    exact .kept c
  | clear a =>
    cases hstep
    exact produced_update (clear_produced (h a)) c
  | reserve a n =>
    obtain ⟨t, ht, hstep⟩ := bind_eq_ok hstep
    cases hstep
    have hcases := (reserve_cases (h a) n).imp_left And.right
    exact produced_update (produced_of_cases hcases (.kept a) ht) c
  | copyConstruct a b =>
    obtain ⟨t, ht, hstep⟩ := bind_eq_ok hstep
    cases hstep
    have hcases := (copyConstruct_cases (h b)).imp_left And.right
    exact produced_update (produced_of_cases hcases .blank ht) c
  | copyAssign a b =>
    rw [step] at hstep
    split at hstep
    · cases hstep
      exact .kept c
    · obtain ⟨t, ht, hstep⟩ := bind_eq_ok hstep
      cases hstep
      have hcases := (copyAssign_cases (h a) (h b)).imp_left And.right
      exact produced_update (produced_of_cases hcases (clear_produced (h a)) ht) c
  | moveConstruct a b =>
    cases hstep
    exact produced_update₂ (.kept b) .blank c
  | moveAssign a b =>
    rw [step] at hstep
    split at hstep
    · cases hstep
      exact .kept c
    · cases hstep
      exact produced_update₂ (.kept b) .blank c
  | swap a b =>
    cases hstep
    exact produced_update₂ (.kept b) (.kept a) c

theorem Sized.set_same (hs : Sized cs) (h : cs[i]? = some (.full v)) (w : β) :
    Sized (cs.set i (.full w)) := by
  obtain ⟨l, r, hold, hnew⟩ := values_set_replace h w
  refine ⟨by simpa using hs.capacity, ?_⟩
  have := hs.size
  rw [hnew]
  rw [hold] at this
  simpa using this

theorem Sized.set_erased (hs : Sized cs) (h : cs[i]? = some (.full v)) :
    Sized (cs.set i (erasedCell cs i)) := by
  refine ⟨by simpa using hs.capacity, ?_⟩
  have hlen := (values_set_of_full h (value?_erasedCell cs i)).length_eq
  have := hs.size
  rw [length_set]
  rw [length_cons] at hlen
  omega

theorem Produced.laid (hs : ∀ c, Laid K P (s c)) (h : Produced K P s op t) : Laid K P t := by
  cases h with
  | kept c => exact hs c
  | blank => exact .unallocated
  | rebuilt sized tomb => exact .cells sized
  | emplaced inserts prepared emplaced => exact .cells (emplaced.sized prepared.sized)
  | assigned inserts prepared emplaced slot =>
    exact .cells ((emplaced.sized prepared.sized).set_same slot _)
  | erased table sized slot => exact .cells (sized.set_erased slot)

end Produces

/-! ### Probes that stop -/

@[simp] theorem count_kEmpty_ofCells (cs : List (Cell β)) :
    (ofCells K P cs).mCtrl.count .kEmpty = unused cs := by
  have hcell : ∀ c : Cell β, (c.ctrl K P == .kEmpty) = c.isUnused := by
    intro c
    cases c <;> simp [isUnused, H2]
  simp only [ofCells, unused, List.count, countP_append, countP_map]
  simp [Function.comp_def, hcell]

/-- Every probe over the table stops, whatever the key, within `mCapacity` rounds. -/
def Finishes (K : KeyHash κ) (P : Policy κ ν β) (t : Table β) : Prop :=
  ∀ k, (∃ it, find K P t k = .ok it) ∧ (∃ b, contains K P t k = .ok b) ∧
    (∃ r, erase K P t k = .ok r) ∧ ∃ r, probe K P t k = .ok r

/-- A table with storage has an unused control byte, and its probes stop. -/
def KeepsEmpty (K : KeyHash κ) (P : Policy κ ν β) (t : Table β) : Prop :=
  t.mCapacity ≠ 0 → .kEmpty ∈ t.mCtrl ∧ Finishes K P t

theorem finishes_of_unused (hcap : ValidCapacity cs.length)
    (h : 0 < unused cs) : Finishes K P (ofCells K P cs) := by
  intro k
  obtain ⟨r, hr⟩ := scanFor_isSome hcap.powerOfTwo h k
  have hprobe : probe K P (ofCells K P cs) k = .ok r := by rw [probe_ofCells hcap.powerOfTwo, hr]
  obtain ⟨hnone, -⟩ | ⟨p, v, -, hp, -, hfind⟩ | ⟨q, -, hfind⟩ :=
    find_cases hcap.powerOfTwo k
  · rw [hnone] at hr
    cases hr
  · exact ⟨⟨_, hfind⟩, ⟨_, contains_ofCells hfind⟩, ⟨_, erase_present hcap hfind hp⟩, ⟨_, hprobe⟩⟩
  · exact ⟨⟨_, hfind⟩, ⟨_, contains_ofCells hfind⟩, ⟨_, erase_absent hfind⟩, ⟨_, hprobe⟩⟩

theorem keepsEmpty_unallocated : KeepsEmpty K P (unallocated : Table β) :=
  fun h => absurd rfl h

theorem keepsEmpty_ofCells (hcap : ValidCapacity cs.length) :
    KeepsEmpty K P (ofCells K P cs) ↔ 0 < unused cs := by
  rw [← count_kEmpty_ofCells, count_pos_iff]
  constructor
  · intro h
    exact (h hcap.pos.ne').1
  · intro h _
    refine ⟨h, finishes_of_unused hcap ?_⟩
    rw [← count_kEmpty_ofCells]
    exact count_pos_iff.mpr h

/-- Inserting `k` takes the last unused byte of the table: only one is left, the
size permits the insertion without growing, and all slots before that byte on the
probe path of `k` hold elements with other keys, so that neither an equal key nor
a tombstone stops the probe earlier. -/
def TakesLastEmpty (K : KeyHash κ) (P : Policy κ ν β) (t : Table β) (k : κ) : Prop :=
  t.mCtrl.count .kEmpty = 1 ∧ t.mSize + 1 ≤ growthThreshold t.mCapacity ∧
    ∃ pre e post, path t.mCapacity (K.hash k) = pre ++ e :: post ∧
      t.mCtrl[e]? = some .kEmpty ∧
      ∀ p ∈ pre, ∃ v, t.mSlots[p]? = some (some v) ∧ K.eq k (P.key v) = false

theorem ctrl_kEmpty_ofCells_iff {p : Nat} :
    (ofCells K P cs).mCtrl[p]? = some .kEmpty ↔ cs[p]? = some .empty := by
  by_cases hlt : p < cs.length
  · rw [ofCells, getElem?_append_left (by simpa using hlt), getElem?_map]
    simp [ctrl_eq_kEmpty_iff]
  · have hnone : cs[p]? = none := getElem?_eq_none (Nat.le_of_not_lt hlt)
    rw [hnone, ofCells, getElem?_append_right (by simpa using Nat.le_of_not_lt hlt)]
    cases p - (cs.map (ctrl K P)).length <;> simp

theorem takesLastEmpty_ofCells_iff {k : κ} : TakesLastEmpty K P (ofCells K P cs) k ↔
      unused cs = 1 ∧ (values cs).length + 1 ≤ growthThreshold cs.length ∧
        ∃ q, scanFor K P cs k = some (.vacant q) ∧ cs[q]? = some .empty := by
  simp only [TakesLastEmpty, count_kEmpty_ofCells, ofCells_mSize, ofCells_mCapacity,
    slots_ofCells_iff, ctrl_kEmpty_ofCells_iff]
  refine and_congr_right fun _ => and_congr_right fun _ => ⟨?_, ?_⟩
  · rintro ⟨pre, e, post, hpath, he, hpre⟩
    refine ⟨e, ?_, he⟩
    rw [scanFor, hpath]
    exact scan_vacant_of_full he hpre
  · rintro ⟨q, hscan, hq⟩
    obtain ⟨pre, e, post, hpath, he, hpass, hend⟩ := scan_vacant_inv hscan
    refine ⟨pre, e, post, hpath, he, fun p hp => ?_⟩
    rcases hend with hend | ⟨-, rfl, hnot⟩ | ⟨-, hmem, hdel⟩
    · cases hend
    · rcases hpass p hp with hdel | hfull
      · exact absurd hdel (hnot p hp)
      · exact hfull
    · rw [hq] at hdel
      cases hdel

/-- An insertion that does not take the last unused byte leaves one. -/
theorem Emplaced.unused_pos {ds : List (Cell β)} {it : Nat} {new : Bool}
    (h : Emplaced K P cs v ds it new) (hcap : ValidCapacity cs.length) (hpos : 0 < unused cs)
    (hlast : ¬ TakesLastEmpty K P (ofCells K P cs) (P.key v)) : 0 < unused ds := by
  cases h with
  | present found => exact hpos
  | filled free room =>
    rcases (scanFor_vacant_inv hcap.powerOfTwo free).1 with hq | hq
    · have hne : unused cs ≠ 1 := fun hone =>
        hlast (takesLastEmpty_ofCells_iff.mpr ⟨hone, room, it, free, hq⟩)
      have hset := unused_set (d := .full v) hq
      simp only [isUnused, if_true, Bool.false_eq_true, if_false] at hset
      omega
    · have hset := unused_set (d := .full v) hq
      simp only [isUnused, Bool.false_eq_true, if_false] at hset
      omega

theorem unused_set_of_full {i : Nat} (h : cs[i]? = some (.full v))
    (c : Cell β) : unused cs ≤ unused (cs.set i c) := by
  have hset := unused_set (d := c) h
  simp only [isUnused, Bool.false_eq_true, if_false] at hset
  omega

section Stops

variable {s : Family β} {op : Op κ ν β}

theorem Produced.keepsEmpty (hs : ∀ c, KeepsEmpty K P (s c))
    (hlast : ∀ a v, op.inserts P = some (a, v) → ¬ TakesLastEmpty K P (s a) (P.key v))
    {t : Table β} (h : Produced K P s op t) : KeepsEmpty K P t := by
  have hemplaced : ∀ {a : Nat} {v : β} {base ds : List (Cell β)} {it : Nat} {new : Bool},
      op.inserts P = some (a, v) → Prepared K P (s a) base → Emplaced K P base v ds it new →
      0 < unused ds := by
    intro a v base ds it new hins hprep hemp
    generalize hsa : s a = u at hprep
    cases hprep with
    | same sized =>
      refine hemp.unused_pos sized.capacity ?_ (hsa ▸ hlast a v hins)
      rw [← keepsEmpty_ofCells sized.capacity, ← hsa]
      exact hs a
    | rebuilt capacity room tomb perm chained =>
      exact (hemp.noTombstones tomb).unused_pos (hemp.sized ⟨capacity, by omega⟩)
  cases h with
  | kept c => exact hs c
  | blank => exact keepsEmpty_unallocated
  | rebuilt sized tomb => exact (keepsEmpty_ofCells sized.capacity).mpr (tomb.unused_pos sized)
  | emplaced inserts prepared emplaced =>
    exact (keepsEmpty_ofCells (emplaced.sized prepared.sized).capacity).mpr
      (hemplaced inserts prepared emplaced)
  | assigned inserts prepared emplaced slot =>
    have hsized := (emplaced.sized prepared.sized).set_same slot
    exact (keepsEmpty_ofCells (hsized _).capacity).mpr
      (Nat.lt_of_lt_of_le (hemplaced inserts prepared emplaced) (unused_set_of_full slot _))
  | @erased a i v cs table sized slot =>
    have hpos : 0 < unused cs := by
      rw [← keepsEmpty_ofCells sized.capacity, ← table]
      exact hs a
    exact (keepsEmpty_ofCells (sized.set_erased slot).capacity).mpr
      (Nat.lt_of_lt_of_le hpos (unused_set_of_full slot _))

/-- Conversely, taking the last unused byte leaves none. -/
theorem emplaceImpl_takesLast {t t' : Table β} {it : Nat} {new : Bool} (hlaid : Laid K P t)
    (hlast : TakesLastEmpty K P t (P.key v)) (hrun : emplaceImpl K P t v = .ok (t', it, new)) :
    ∃ ds, t' = ofCells K P ds ∧ ValidCapacity ds.length ∧ unused ds = 0 := by
  cases hlaid with
  | unallocated =>
    obtain ⟨hcount, -⟩ := hlast
    cases hcount
  | @cells cs sized =>
    obtain ⟨hone, hroom, q, hscan, hq⟩ := takesLastEmpty_ofCells_iff.mp hlast
    have hcap := sized.capacity
    rw [emplaceImpl_eq, if_neg (show (ofCells K P cs).mCapacity ≠ 0 from hcap.pos.ne'),
      Except.bind, emplaceWith_filled hcap.powerOfTwo hscan hroom] at hrun
    cases hrun
    have hset := unused_set (d := .full v) hq
    simp only [isUnused, if_true, Bool.false_eq_true, if_false] at hset
    exact ⟨_, rfl, by simpa using hcap, by omega⟩

theorem step_takesLast (hlaid : ∀ c, Laid K P (s c)) {a : Nat} (hins : op.inserts P = some (a, v))
    (hlast : TakesLastEmpty K P (s a) (P.key v)) {s' : Family β} {ans : Answer β}
    (hstep : step K P s op = .ok (s', ans)) : ¬ KeepsEmpty K P (s' a) := by
  have hnot : ∀ {ds : List (Cell β)}, ValidCapacity ds.length → unused ds = 0 →
      ¬ KeepsEmpty K P (ofCells K P ds) := by
    intro ds hcap hzero
    rw [keepsEmpty_ofCells hcap]
    omega
  obtain ⟨t, it, new, w, ht, hw, hs'⟩ := step_inserts hins hstep
  obtain ⟨ds, rfl, hcap, hzero⟩ := emplaceImpl_takesLast (hlaid a) hlast ht
  obtain rfl | ⟨x, rfl⟩ := hs'
  · simpa using hnot hcap hzero
  · have hslot := slotAt_ofCells_inv hw
    have hset := unused_set (d := .full (P.setMapped w x)) hslot
    simp only [isUnused, Bool.false_eq_true, if_false] at hset
    rw [setSlot_ofCells hslot (P.key_setMapped w x), update_self]
    exact hnot (by simpa using hcap) (by omega)

end Stops

/-! ### Whole runs -/

variable {s s' : Family β} {op : Op κ ν β}

theorem machine_step_iff :
    (machine K P).step s op = some s' ↔ ∃ ans, step K P s op = .ok (s', ans) := by
  simp only [machine]
  cases hstep : step K P s op with
  | error e => simp
  | ok r =>
    obtain ⟨t, ans⟩ := r
    simp

theorem machine_step_laid (h : ∀ c, Laid K P (s c))
    (hstep : (machine K P).step s op = some s') (c : Nat) : Laid K P (s' c) := by
  obtain ⟨ans, hstep⟩ := machine_step_iff.mp hstep
  exact (step_produced h hstep c).laid h

theorem always_laid (K : KeyHash κ) (P : Policy κ ν β) (ops : List (Op κ ν β)) :
    (machine K P).Always (fun s => ∀ c, Laid K P (s c)) (machine K P).init ops :=
  Transition.Machine.always_of_step (fun _ _ _ h hstep => machine_step_laid h hstep)
    (fun _ => .unallocated) ops

/-- **When the probe loops stop.** Throughout a run every table with storage keeps
an unused control byte, and all its probes stop within `mCapacity` rounds, exactly
when no insertion of the run takes the last unused byte of its table. -/
theorem probes_stop_iff (K : KeyHash κ) (P : Policy κ ν β) (ops : List (Op κ ν β)) :
    (machine K P).Always (fun s => ∀ c, KeepsEmpty K P (s c))
        (machine K P).init ops ↔
      (machine K P).Meets
        (fun s op => ∀ a v, op.inserts P = some (a, v) → ¬ TakesLastEmpty K P (s a) (P.key v))
        (machine K P).init ops := by
  refine Transition.Machine.always_iff_meets (I := fun s => ∀ c, Laid K P (s c)) ?_ ?_
    (fun _ => .unallocated) (fun _ => keepsEmpty_unallocated) ops
  · intro s op s' hlaid hstep
    exact machine_step_laid hlaid hstep
  · intro s op s' hlaid hkeeps hstep
    obtain ⟨ans, hstep⟩ := machine_step_iff.mp hstep
    constructor
    · intro h a v hins hlast
      exact step_takesLast hlaid hins hlast hstep (h a)
    · intro hlast c
      exact (step_produced hlaid hstep c).keepsEmpty hkeeps hlast

/-- Keys spread over the home slots of a table: `H1` of the hash is the key. -/
def spreadKeys : KeyHash Nat where
  hash k := k * 128
  eq a b := a == b
  eq_refl a := by simp
  eq_symm a b h := by simpa using Eq.symm (by simpa using h)
  eq_trans a b c hab hbc := by
    rw [beq_iff_eq] at hab hbc ⊢
    exact hab.trans hbc
  hash_eq a b h := by rw [beq_iff_eq.mp h]

/-- Fourteen inserts into sixteen slots leave two unused bytes; two rounds of
erasing one key (which leaves a tombstone) and inserting another use them up. -/
def exhaustingOps : List (Op Nat Unit Nat) :=
  .reserve 0 14 :: (List.range 14).map (.insert 0) ++
    [.erase 0 0, .insert 0 14, .erase 0 1, .insert 0 15]

/-- The run of `exhaustingOps` ends with fourteen elements in sixteen slots and no
unused byte: neither the lookup nor the insertion of an absent key stops. -/
theorem exhausted_probe_diverges : ∃ s, (machine spreadKeys (flatHashSetPolicy Nat)).run
        (machine spreadKeys (flatHashSetPolicy Nat)).init exhaustingOps = some s ∧
      (s 0).mCapacity = 16 ∧ (s 0).mSize = 14 ∧ .kEmpty ∉ (s 0).mCtrl ∧
      find spreadKeys (flatHashSetPolicy Nat) (s 0) 99 = .error .diverges ∧
      probe spreadKeys (flatHashSetPolicy Nat) (s 0) 99 = .error .diverges :=
  ⟨_, rfl, rfl, rfl, by decide +kernel, rfl, rfl⟩

/-- The table of that run: two tombstones and fourteen keys. A thousand rounds do not end the
lookup. -/
theorem findLoop_endless_exhausted :
    findLoop spreadKeys (flatHashSetPolicy Nat) (ofCells spreadKeys (flatHashSetPolicy Nat)
      (deleted :: deleted :: (List.range' 2 14).map .full)) 99 1000 (.start 12672 15) =
        .error .diverges :=
  findLoop_endless 99 1000 ⟨4, rfl⟩ rfl

end CxxKit.RawHashSet
