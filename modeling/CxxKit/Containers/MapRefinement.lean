import CxxKit.Lib.KeyedSet
import CxxKit.Lib.Service
import CxxKit.Containers.TableRuns

/-!
The containers against finite maps.

`MapStep` is what `flat_hash_map` and `flat_hash_set` are for: every handle names a
finite set of elements with pairwise different keys, every operation acts on it
and has the answers a caller may see.  `answers_agree` is the refinement: in a run
whose operations are all `Allowed` no operation faults and every answer is one of
the finite map.

`Allowed` keeps clear of three things the code gets wrong: a lookup, an erase or
an iteration on a table without storage reads through a null pointer; an
insertion may take the last unused control byte; and an erase turns a slot back
into an unused one by looking at the slot next to it, although the probe sequence
that runs through the slot continues elsewhere.
-/

namespace CxxKit.RawHashSet

open Family Function KeyedSet List Table

variable {κ ν β : Type} {K : KeyHash κ} {P : Policy κ ν β}

/-! ### The specification -/

/-- The elements of a container, keyed by the policy and compared by `Eq`. -/
def keying (K : KeyHash κ) (P : Policy κ ν β) : Keying κ β where
  key := P.key
  same a b := K.eq a b = true
  equiv := ⟨K.eq_refl, fun {a b} => K.eq_symm a b, fun {a b c} => K.eq_trans a b c⟩

/-- A finite map, or set, for every handle. -/
abbrev Maps (K : KeyHash κ) (P : Policy κ ν β) := Nat → KeyedSet (keying K P)

/-- What the operations mean on finite maps. -/
inductive MapStep (K : KeyHash κ) (P : Policy κ ν β) (m : Maps K P) :
    Op κ ν β → Answer β → Maps K P → Prop where
  | construct (a hint : Nat) :
      MapStep K P m (.construct a hint) .done (update m a .empty)
  | insert (a : Nat) (v : β) :
      MapStep K P m (.insert a v)
        (.inserted (((m a).find (P.key v)).getD v) ((m a).find (P.key v)).isNone)
        (update m a ((m a).insert v))
  | emplace (a : Nat) (v : β) :
      MapStep K P m (.emplace a v)
        (.inserted (((m a).find (P.key v)).getD v) ((m a).find (P.key v)).isNone)
        (update m a ((m a).insert v))
  | subscript (a : Nat) (k : κ) :
      MapStep K P m (.subscript a k) (.element (some (((m a).find k).getD (P.construct k))))
        (update m a ((m a).insert (P.construct k)))
  | subscriptSet (a : Nat) (k : κ) (x : ν) :
      MapStep K P m (.subscriptSet a k x) .done
        (update m a (((m a).insert (P.construct k)).replace
          (P.setMapped (((m a).find k).getD (P.construct k)) x)))
  | find (a : Nat) (k : κ) : MapStep K P m (.find a k) (.element ((m a).find k)) m
  | contains (a : Nat) (k : κ) : MapStep K P m (.contains a k) (.flag ((m a).find k).isSome) m
  | count (a : Nat) (k : κ) :
      MapStep K P m (.count a k) (.number (if ((m a).find k).isSome then 1 else 0)) m
  | size (a : Nat) : MapStep K P m (.size a) (.number (m a).size) m
  | erase (a : Nat) (k : κ) :
      MapStep K P m (.erase a k) (.number (if ((m a).find k).isSome then 1 else 0))
        (update m a ((m a).remove k))
  | eraseIter (a it : Nat) (v : β) (mem : v ∈ (m a).carrier) :
      MapStep K P m (.eraseIter a it) (.element (some v))
        (update m a ((m a).remove (P.key v)))
  | iterate (a : Nat) (vs : List β) (lists : KeyedSet.Lists vs (m a)) :
      MapStep K P m (.iterate a) (.elements vs) m
  | clear (a : Nat) : MapStep K P m (.clear a) .done (update m a .empty)
  | reserve (a n : Nat) : MapStep K P m (.reserve a n) .done m
  | copyConstruct (a b : Nat) :
      MapStep K P m (.copyConstruct a b) .done (update m a (m b))
  | copyAssign (a b : Nat) : MapStep K P m (.copyAssign a b) .done (update m a (m b))
  | moveConstruct (a b : Nat) :
      MapStep K P m (.moveConstruct a b) .done
        (update (update m a (m b)) b .empty)
  | moveAssign (a b : Nat) (ne : a ≠ b) :
      MapStep K P m (.moveAssign a b) .done
        (update (update m a (m b)) b .empty)
  | moveSelf (a : Nat) : MapStep K P m (.moveAssign a a) .done m
  | swap (a b : Nat) :
      MapStep K P m (.swap a b) .done (update (update m a (m b)) b (m a))

section Inversion

variable {m m' : Maps K P} {a : Nat} {k : κ} {v : β} {ans : Answer β}

theorem MapStep.insert_inv (h : MapStep K P m (.insert a v) ans m') : m' a = (m a).insert v := by
  cases h
  exact update_self ..

theorem MapStep.erase_inv (h : MapStep K P m (.erase a k) ans m') : m' a = (m a).remove k := by
  cases h
  exact update_self ..

theorem MapStep.find_inv (h : MapStep K P m (.find a k) ans m') :
    ans = .element ((m a).find k) := by
  cases h
  rfl

end Inversion

/-! ### The condition -/

/-- Erasing slot `i` breaks no other chain: either the next slot is in use, so that
a tombstone is left, or no other element is probed for through slot `i`. -/
def FreesSafely (K : KeyHash κ) (P : Policy κ ν β) (t : Table β) (i : Nat) : Prop :=
  t.mCtrl[(i + 1) &&& (t.mCapacity - 1)]? = some .kEmpty →
    ∀ j w, j ≠ i → t.mSlots[j]? = some (some w) →
      i ∉ (path t.mCapacity (K.hash (P.key w))).takeWhile fun p => p != j

/-- The operations that behave as on a finite map, by the state before them. -/
def Allowed (K : KeyHash κ) (P : Policy κ ν β) (s : Family β) : Op κ ν β → Prop
  | .insert a v => ¬ TakesLastEmpty K P (s a) (P.key v)
  | .emplace a v => ¬ TakesLastEmpty K P (s a) (P.key v)
  | .subscript a k => ¬ TakesLastEmpty K P (s a) k
  | .subscriptSet a k _ => ¬ TakesLastEmpty K P (s a) k
  | .find a _ => (s a).mCapacity ≠ 0
  | .contains a _ => (s a).mCapacity ≠ 0
  | .count a _ => (s a).mCapacity ≠ 0
  | .iterate a => (s a).mCapacity ≠ 0
  | .erase a k => (s a).mCapacity ≠ 0 ∧ ∀ i v, (s a).mSlots[i]? = some (some v) →
      K.eq k (P.key v) = true → FreesSafely K P (s a) i
  | .eraseIter a it => (∃ v, (s a).mSlots[it]? = some (some v)) ∧ FreesSafely K P (s a) it
  | _ => True

theorem freesSafely_ofCells {cs : List (Cell β)} (hcap : ValidCapacity cs.length) {i : Nat}
    (h : FreesSafely K P (ofCells K P cs) i) : erasedCell cs i = .empty → OffChains K P cs i := by
  intro hempty j w hj hw
  have hmask : (i + 1) &&& (cs.length - 1) = (i + 1) % cs.length := by
    obtain ⟨k, -, hk⟩ := hcap
    rw [hk, Nat.and_two_pow_sub_one_eq_mod]
  refine h ?_ j w hj (slots_ofCells_iff.mpr hw)
  rw [ofCells_mCapacity, hmask, ctrl_kEmpty_ofCells_iff]
  unfold erasedCell at hempty
  split at hempty
  · assumption
  · cases hempty

/-! ### Sound tables -/

/-- The tables that hold what they are supposed to hold. -/
inductive Sound (K : KeyHash κ) (P : Policy κ ν β) : Table β → Prop where
  | unallocated : Sound K P unallocated
  | cells {cs : List (Cell β)} (sized : Sized cs) (chained : Chained K P cs)
      (spare : 0 < unused cs) : Sound K P (ofCells K P cs)

namespace Sound

variable {t : Table β}

variable (h : Sound K P t)
include h

theorem laid : Laid K P t := by
  cases h with
  | unallocated => exact .unallocated
  | cells sized chained spare => exact .cells sized

theorem keysDistinct : KeysDistinct K P t.contents := by
  cases h with
  | unallocated => exact List.Pairwise.nil
  | cells sized chained spare =>
    rw [contents_ofCells]
    exact chained.distinct.keysDistinct

/-- A table with storage, through its cells. -/
theorem exists_cells (hcap : t.mCapacity ≠ 0) :
    ∃ cs, t = ofCells K P cs ∧ Sized cs ∧ Chained K P cs ∧ 0 < unused cs := by
  cases h with
  | unallocated => exact absurd rfl hcap
  | cells sized chained spare => exact ⟨_, rfl, sized, chained, spare⟩

omit h in
theorem of_cells {cs : List (Cell β)} (h : Sound K P (ofCells K P cs)) :
    Sized cs ∧ Chained K P cs ∧ 0 < unused cs := by
  generalize ht : ofCells K P cs = t at h
  cases h with
  | unallocated =>
    have hlen := congrArg (fun t => t.mCtrl.length) ht
    simp [ofCells, Table.unallocated] at hlen
  | cells sized chained spare =>
    cases ofCells_injective ht
    exact ⟨sized, chained, spare⟩

theorem mSize_eq : t.mSize = t.contents.length := by
  cases h with
  | unallocated => rfl
  | cells sized chained spare => simp

theorem capacity_of_slot {i : Nat} {v : β} (hv : t.mSlots[i]? = some (some v)) :
    t.mCapacity ≠ 0 := by
  cases h with
  | unallocated => simp [Table.unallocated] at hv
  | cells sized chained spare => exact sized.capacity.pos.ne'

end Sound

theorem Rebuilds.sound {cap : Nat} {r : Except Fault (Table β)} {vs : List β}
    (h : Rebuilds K P cap r vs) (hkeys : KeysDistinct K P vs) :
    ∃ t, r = .ok t ∧ Sound K P t ∧ t.contents.Perm vs := by
  obtain ⟨ds, hds, hch⟩ := h.ok hkeys
  obtain ⟨es, heq, hlen, htomb, hperm⟩ := h.inv _ hds
  cases ofCells_injective heq
  have hsized : Sized ds := ⟨hch.capacity, by rw [hperm.length_eq, hlen]; exact h.room⟩
  exact ⟨_, hds, .cells hsized hch (htomb.unused_pos hsized), by simpa using hperm⟩

theorem clear_sound {t : Table β} (h : Sound K P t) :
    Sound K P t.clear ∧ t.clear.contents = [] := by
  obtain ⟨-, hclear⟩ | ⟨cap, hcap, -, hclear⟩ := clear_cases h.laid
  · rw [hclear]
    exact ⟨.unallocated, rfl⟩
  · obtain ⟨t', ht', hsound, hperm⟩ :=
      (fresh_rebuilds hcap).sound List.Pairwise.nil
    cases ht'
    rw [hclear]
    exact ⟨hsound, perm_nil.mp hperm⟩

/-! ### One operation -/

section Simulation

variable {cs : List (Cell β)} {S : KeyedSet (keying K P)} {t : Table β}

theorem eq_false_iff_not {a b : κ} : K.eq a b = false ↔ ¬ (keying K P).same a b := by
  rw [Bool.eq_false_iff]
  exact Iff.rfl

/-- A lookup finds the slot of the element the map has for the key. -/
theorem lookup_agrees (hch : Chained K P cs) (hspare : 0 < unused cs)
    (hl : KeyedSet.Lists (values cs) S) (k : κ) :
    (∃ p v, find K P (ofCells K P cs) k = .ok p ∧ cs[p]? = some (.full v) ∧
        K.eq k (P.key v) = true ∧ S.find k = some v) ∨
      (find K P (ofCells K P cs) k = .ok cs.length ∧ S.find k = none ∧
        ∀ w ∈ values cs, K.eq k (P.key w) = false) := by
  obtain ⟨hnone, -⟩ | ⟨p, v, -, hp, heq, hfind⟩ | ⟨q, hscan, hfind⟩ :=
    find_cases hch.capacity.powerOfTwo k
  · obtain ⟨r, hr⟩ := scanFor_isSome hch.capacity.powerOfTwo hspare k
    rw [hnone] at hr
    cases hr
  · refine .inl ⟨p, v, hfind, hp, heq, find_eq_some ?_ heq⟩
    exact (hl.2 v).mp (mem_values.mpr (mem_of_getElem? hp))
  · have habsent := scanFor_vacant_absent hch.capacity.powerOfTwo hch.reached hscan
    refine .inr ⟨hfind, find_eq_none fun v hv => ?_, habsent⟩
    exact eq_false_iff_not.mp (habsent v ((hl.2 v).mpr hv))

variable {v : β} {i : Nat}

theorem eraseAt_agrees (hsized : Sized cs) (hch : Chained K P cs) (hspare : 0 < unused cs)
    (hl : KeyedSet.Lists (values cs) S) (hi : cs[i]? = some (.full v))
    (hsafe : FreesSafely K P (ofCells K P cs) i) {k : κ} (hk : K.eq k (P.key v) = true) :
    Sound K P (ofCells K P (cs.set i (erasedCell cs i))) ∧
      KeyedSet.Lists (values (cs.set i (erasedCell cs i))) (S.remove k) := by
  constructor
  · exact .cells (hsized.set_erased hi)
      (hch.set_erased (freesSafely_ofCells hch.capacity hsafe))
      (Nat.lt_of_lt_of_le hspare (unused_set_of_full hi _))
  · have hperm := values_set_of_full hi (value?_erasedCell cs i)
    exact (hl.perm hperm.symm).remove_cons hk

/-- Inserting agrees with inserting into the map. -/
theorem emplace_agrees (h : Sound K P t) (hl : KeyedSet.Lists t.contents S)
    (hlast : ¬ TakesLastEmpty K P t (P.key v)) :
    ∃ ds it, t.emplaceImpl K P v = .ok (ofCells K P ds, it, (S.find (P.key v)).isNone) ∧
      ds[it]? = some (.full ((S.find (P.key v)).getD v)) ∧ Sound K P (ofCells K P ds) ∧
      KeyedSet.Lists (values ds) (S.insert v) := by
  have hunused : ∀ cs, t = ofCells K P cs → 0 < unused cs := by
    rintro cs rfl
    exact h.of_cells.2.2
  obtain ⟨t', it, new, hrun⟩ := emplaceImpl_ok h.laid h.keysDistinct hunused v
  obtain ⟨base, ds, hprep, hemp, rfl⟩ := emplaceImpl_inv h.laid hrun
  have hbase : Chained K P base ∧ 0 < unused ds := by
    cases hprep with
    | same sized =>
      exact ⟨h.of_cells.2.1, hemp.unused_pos sized.capacity h.of_cells.2.2 hlast⟩
    | rebuilt capacity room tomb perm chained =>
      exact ⟨chained h.keysDistinct,
        (hemp.noTombstones tomb).unused_pos (hemp.sized ⟨capacity, by omega⟩)⟩
  obtain ⟨hch, hspare⟩ := hbase
  have hlbase : KeyedSet.Lists (values base) S := hl.perm hprep.perm.symm
  have hsound : Sound K P (ofCells K P ds) :=
    .cells (hemp.sized hprep.sized) (hemp.chained hch) hspare
  refine ⟨ds, it, ?_⟩
  obtain ⟨rfl, rfl, w, hw, heq⟩ | ⟨rfl, hv, hperm⟩ := hemp.slot hch.capacity
  · have hmem := mem_values.mpr (mem_of_getElem? hw)
    have hfind : S.find (P.key v) = some w := find_eq_some ((hlbase.2 w).mp hmem) heq
    rw [hfind]
    exact ⟨hrun, hw, hsound, hlbase.insert_present hmem heq⟩
  · have habsent := hemp.absent hch
    have hfind : S.find (P.key v) = none := find_eq_none fun w hw =>
      eq_false_iff_not.mp (habsent w ((hlbase.2 w).mpr hw))
    rw [hfind]
    refine ⟨hrun, hv, hsound, ?_⟩
    exact (hlbase.insert_absent fun w hw => eq_false_iff_not.mp (habsent w hw)).perm hperm.symm

/-- Assigning to the element of a slot replaces it in the map. -/
theorem setSlot_agrees (h : Sound K P (ofCells K P cs)) (hl : KeyedSet.Lists (values cs) S) {w : β}
    (hi : cs[i]? = some (.full v)) (hkey : P.key w = P.key v) :
    Sound K P (ofCells K P (cs.set i (.full w))) ∧
      KeyedSet.Lists (values (cs.set i (.full w))) (S.replace w) := by
  obtain ⟨hs, hch, hspare⟩ := h.of_cells
  obtain ⟨l, r, hold, hnew⟩ := values_set_replace hi w
  constructor
  · exact .cells (hs.set_same hi w) (hch.set_same hi hkey)
      (Nat.lt_of_lt_of_le hspare (unused_set_of_full hi _))
  · rw [hnew]
    have hcons : KeyedSet.Lists (v :: (l ++ r)) S := hl.perm (hold ▸ perm_middle)
    have hsame : (keying K P).same ((keying K P).key w) ((keying K P).key v) := by
      change K.eq (P.key w) (P.key v) = true
      rw [hkey]
      exact K.eq_refl _
    exact (hcons.replace_cons hsame).perm perm_middle.symm

end Simulation

/-! ### All operations -/

/-- Every handle holds a sound table with the elements of its map. -/
def Represents (K : KeyHash κ) (P : Policy κ ν β) (s : Family β) (m : Maps K P) : Prop :=
  ∀ c, Sound K P (s c) ∧ KeyedSet.Lists (s c).contents (m c)

section Represents

variable {s : Family β} {m : Maps K P}

theorem Represents.update (h : Represents K P s m) {t : Table β} {S : KeyedSet (keying K P)}
    (ht : Sound K P t) (hl : KeyedSet.Lists t.contents S) (a : Nat) :
    Represents K P (update s a t) (update m a S) := by
  intro c
  by_cases hca : c = a
  · subst hca
    simpa using ⟨ht, hl⟩
  · simpa [update_of_ne hca] using h c

theorem Represents.rebuild (h : Represents K P s m) {cap : Nat} {r : Except Fault (Table β)}
    {b : Nat} (hreb : Rebuilds K P cap r (s b).contents) :
    ∃ t, r = .ok t ∧ Sound K P t ∧ KeyedSet.Lists t.contents (m b) := by
  obtain ⟨t, ht, hsound, hperm⟩ := hreb.sound (h b).1.keysDistinct
  exact ⟨t, ht, hsound, (h b).2.perm hperm.symm⟩

end Represents

/-- The containers as a service. -/
def Family.service (K : KeyHash κ) (P : Policy κ ν β) :
    Transition.Service (Family β) (Op κ ν β) (Answer β) Fault where
  init _ := .unallocated
  step := step K P

/-- The operation does not fault, and its answer and effect are those of the
finite map. -/
def Agrees (K : KeyHash κ) (P : Policy κ ν β) (s : Family β) (m : Maps K P) (op : Op κ ν β) :
    Prop :=
  ∃ s' ans m', step K P s op = .ok (s', ans) ∧ MapStep K P m op ans m' ∧
    Represents K P s' m'

section Operations

variable {s : Family β} {m : Maps K P} (h : Represents K P s m)

include h

theorem construct_agrees (a hint : Nat) : Agrees K P s m (.construct a hint) := by
  obtain hres | ⟨cap, hreb⟩ := ofHint_cases hint
  · refine ⟨_, _, _, ?_, .construct a hint, h.update .unallocated lists_nil a⟩
    rw [step, hres]
    rfl
  · obtain ⟨t, ht, hsound, hperm⟩ := hreb.sound List.Pairwise.nil
    refine ⟨_, _, _, ?_, .construct a hint, h.update hsound (lists_nil.perm hperm.symm) a⟩
    rw [step, ht]
    rfl

/-! #### Insertion -/

variable {a : Nat} {k : κ}

theorem emplaceAt_agrees {v : β} (hlast : ¬ TakesLastEmpty K P (s a) (P.key v)) :
    ∃ s', emplaceAt K P s a v = .ok (s', .inserted (((m a).find (P.key v)).getD v)
        ((m a).find (P.key v)).isNone) ∧
      Represents K P s' (update m a ((m a).insert v)) := by
  obtain ⟨ds, it, hrun, hslot, hsound, hl⟩ := emplace_agrees (h a).1 (h a).2 hlast
  refine ⟨_, ?_, h.update hsound (by simpa using hl) a⟩
  rw [emplaceAt, hrun]
  simp only [slotAt_ofCells hslot, ok_bind]
  rfl

theorem subscript_agrees (hlast : ¬ TakesLastEmpty K P (s a) k) :
    Agrees K P s m (.subscript a k) := by
  rw [← P.key_construct k] at hlast
  obtain ⟨ds, it, hrun, hslot, hsound, hl⟩ := emplace_agrees (h a).1 (h a).2 hlast
  rw [P.key_construct] at hslot
  refine ⟨_, _, _, ?_, .subscript a k, h.update hsound (by simpa using hl) a⟩
  rw [step, hrun]
  simp only [slotAt_ofCells hslot, ok_bind]
  rfl

/-- `m[k] = x`: the element found or constructed is the one assigned to. -/
theorem subscriptSet_agrees (x : ν) (hlast : ¬ TakesLastEmpty K P (s a) k) :
    Agrees K P s m (.subscriptSet a k x) := by
  rw [← P.key_construct k] at hlast
  obtain ⟨ds, it, hrun, hslot, hsound, hl⟩ := emplace_agrees (h a).1 (h a).2 hlast
  rw [P.key_construct] at hslot
  have hkey := P.key_setMapped (((m a).find k).getD (P.construct k)) x
  obtain ⟨hsound', hl'⟩ := setSlot_agrees hsound hl hslot hkey
  refine ⟨_, _, _, ?_, .subscriptSet a k x, h.update hsound' (by simpa using hl') a⟩
  rw [step, hrun]
  simp only [slotAt_ofCells hslot, setSlot_ofCells hslot hkey, ok_bind, pure_eq_ok]

/-! #### Lookup -/

section

variable (hcap : (s a).mCapacity ≠ 0)

include hcap

variable (k : κ)

theorem Represents.lookup : ∃ cs, s a = ofCells K P cs ∧
      ((∃ p v, find K P (ofCells K P cs) k = .ok p ∧ cs[p]? = some (.full v) ∧
          (m a).find k = some v) ∨
        (find K P (ofCells K P cs) k = .ok cs.length ∧ (m a).find k = none)) := by
  obtain ⟨cs, hsa, -, hch, hspare⟩ := (h a).1.exists_cells hcap
  have hl := (h a).2
  rw [hsa, contents_ofCells] at hl
  refine ⟨cs, hsa, ?_⟩
  obtain ⟨p, v, hfind, hp, -, hspec⟩ | ⟨hfind, hspec, -⟩ := lookup_agrees hch hspare hl k
  · exact .inl ⟨p, v, hfind, hp, hspec⟩
  · exact .inr ⟨hfind, hspec⟩

theorem find_agrees : Agrees K P s m (.find a k) := by
  refine ⟨s, _, m, ?_, .find a k, h⟩
  obtain ⟨cs, hsa, ⟨p, v, hfind, hp, hspec⟩ | ⟨hfind, hspec⟩⟩ := h.lookup hcap k
  · simp [step, hsa, hfind, hspec, deref, sentinel_ofCells, ne_sentinel hp,
      slotAt_ofCells hp]
  · simp [step, hsa, hfind, hspec, deref, sentinel_ofCells]

theorem contains_agrees : Agrees K P s m (.contains a k) := by
  refine ⟨s, _, m, ?_, .contains a k, h⟩
  obtain ⟨cs, hsa, ⟨p, v, hfind, hp, hspec⟩ | ⟨hfind, hspec⟩⟩ := h.lookup hcap k
  · simp [step, hsa, contains_ofCells hfind, hspec, ne_sentinel hp]
  · simp [step, hsa, contains_ofCells hfind, hspec]

theorem count_agrees : Agrees K P s m (.count a k) := by
  refine ⟨s, _, m, ?_, .count a k, h⟩
  obtain ⟨cs, hsa, ⟨p, v, hfind, hp, hspec⟩ | ⟨hfind, hspec⟩⟩ := h.lookup hcap k
  · simp [step, hsa, count_ofCells hfind, hspec, ne_sentinel hp]
  · simp [step, hsa, count_ofCells hfind, hspec]

end

theorem size_agrees (a : Nat) : Agrees K P s m (.size a) := by
  refine ⟨s, _, m, ?_, .size a, h⟩
  rw [step, (h a).1.mSize_eq, (h a).2.length]

theorem iterate_agrees (hcap : (s a).mCapacity ≠ 0) : Agrees K P s m (.iterate a) := by
  obtain ⟨cs, hsa, hsized, -⟩ := (h a).1.exists_cells hcap
  have hl := (h a).2
  rw [hsa, contents_ofCells] at hl
  refine ⟨s, _, m, ?_, .iterate a (values cs) hl, h⟩
  rw [step, hsa, elements_ofCells hsized.capacity.powerOfTwo]
  rfl

/-! #### Erasing -/

theorem erase_agrees (hop : Allowed K P s (.erase a k)) : Agrees K P s m (.erase a k) := by
  obtain ⟨hcap, hsafe⟩ := hop
  obtain ⟨cs, hsa, hsized, hch, hspare⟩ := (h a).1.exists_cells hcap
  have hl := (h a).2
  rw [hsa, contents_ofCells] at hl
  rw [hsa] at hsafe
  obtain ⟨p, v, hfind, hp, heq, hspec⟩ | ⟨hfind, hspec, habsent⟩ := lookup_agrees hch hspare hl k
  · obtain ⟨hsound, hl'⟩ := eraseAt_agrees hsized hch hspare hl hp
      (hsafe p v (slots_ofCells_iff.mpr hp) heq) heq
    refine ⟨_, _, _, ?_, .erase a k, h.update hsound (by simpa using hl') a⟩
    rw [step, hsa, erase_present hch.capacity hfind hp, hspec]
    rfl
  · refine ⟨_, _, _, ?_, .erase a k, h.update (.cells hsized hch hspare) ?_ a⟩
    · rw [step, hsa, erase_absent hfind, hspec]
      rfl
    · rw [contents_ofCells]
      exact hl.remove_absent fun w hw => eq_false_iff_not.mp (habsent w hw)

theorem eraseIter_agrees {it : Nat} (hop : Allowed K P s (.eraseIter a it)) :
    Agrees K P s m (.eraseIter a it) := by
  obtain ⟨⟨v, hv⟩, hsafe⟩ := hop
  obtain ⟨cs, hsa, hsized, hch, hspare⟩ := (h a).1.exists_cells ((h a).1.capacity_of_slot hv)
  have hl := (h a).2
  rw [hsa, contents_ofCells] at hl
  rw [hsa] at hsafe hv
  have hi := slots_ofCells_iff.mp hv
  obtain ⟨hsound, hl'⟩ := eraseAt_agrees hsized hch hspare hl hi hsafe (K.eq_refl _)
  have hmem : v ∈ (m a).carrier := (hl.2 v).mp (mem_values.mpr (mem_of_getElem? hi))
  refine ⟨_, _, _, ?_, .eraseIter a it v hmem, h.update hsound (by simpa using hl') a⟩
  rw [step, hsa, slotAt_ofCells hi, eraseAt_ofCells hch.capacity hi]
  rfl

/-! #### Storage -/

variable (a) (b : Nat)

theorem clear_agrees (a : Nat) : Agrees K P s m (.clear a) := by
  obtain ⟨hsound, hnil⟩ := clear_sound (h a).1
  refine ⟨_, _, _, rfl, .clear a, h.update hsound ?_ a⟩
  rw [hnil]
  exact lists_nil

theorem reserve_agrees (a n : Nat) : Agrees K P s m (.reserve a n) := by
  obtain ⟨-, hres⟩ | ⟨cap, hreb⟩ := reserve_cases (h a).1.laid n
  · refine ⟨_, _, m, ?_, .reserve a n, h⟩
    rw [step, hres]
    simp
  · obtain ⟨t, ht, hsound, hl⟩ := h.rebuild hreb
    have hupd := h.update hsound hl a
    rw [update_eq_self] at hupd
    refine ⟨_, _, m, ?_, .reserve a n, hupd⟩
    rw [step, ht]
    rfl

theorem copyConstruct_agrees : Agrees K P s m (.copyConstruct a b) := by
  obtain ⟨hsb, hres⟩ | ⟨cap, hreb⟩ := copyConstruct_cases (h b).1.laid
  · refine ⟨_, _, _, ?_, .copyConstruct a b, h.update (h b).1 (h b).2 a⟩
    rw [step, hsb]
    rfl
  · obtain ⟨t, ht, hsound, hl⟩ := h.rebuild hreb
    refine ⟨_, _, _, ?_, .copyConstruct a b, h.update hsound hl a⟩
    rw [step, ht]
    rfl

theorem copyAssign_agrees : Agrees K P s m (.copyAssign a b) := by
  by_cases hab : a = b
  · subst hab
    refine ⟨s, _, _, if_pos rfl, .copyAssign a a, ?_⟩
    rwa [update_eq_self]
  · obtain ⟨hsb, hres⟩ | ⟨cap, hreb⟩ := copyAssign_cases (h a).1.laid (h b).1.laid
    · -- the source has no storage, hence no elements: the target is cleared
      obtain ⟨hsound, hnil⟩ := clear_sound (h a).1
      have hl : KeyedSet.Lists (s a).clear.contents (m b) := by
        have hlb := (h b).2
        rw [hsb] at hlb
        rwa [hnil]
      refine ⟨_, _, _, ?_, .copyAssign a b, h.update hsound hl a⟩
      rw [step, if_neg hab, hres]
      rfl
    · obtain ⟨t, ht, hsound, hl⟩ := h.rebuild hreb
      refine ⟨_, _, _, ?_, .copyAssign a b, h.update hsound hl a⟩
      rw [step, if_neg hab, ht]
      rfl

theorem moveConstruct_agrees : Agrees K P s m (.moveConstruct a b) :=
  ⟨_, _, _, rfl, .moveConstruct a b,
    (h.update (h b).1 (h b).2 a).update .unallocated lists_nil b⟩

theorem moveAssign_agrees : Agrees K P s m (.moveAssign a b) := by
  by_cases hab : a = b
  · subst hab
    exact ⟨s, _, m, if_pos rfl, .moveSelf a, h⟩
  · exact ⟨_, _, _, if_neg hab, .moveAssign a b hab,
      (h.update (h b).1 (h b).2 a).update .unallocated lists_nil b⟩

theorem swap_agrees : Agrees K P s m (.swap a b) :=
  ⟨_, _, _, rfl, .swap a b, (h.update (h b).1 (h b).2 a).update (h a).1 (h a).2 b⟩

end Operations

theorem step_agrees {s : Family β} {m : Maps K P} (h : Represents K P s m) (op : Op κ ν β)
    (hop : Allowed K P s op) : Agrees K P s m op := by
  cases op with
  | construct a hint => exact construct_agrees h a hint
  | insert a v =>
    obtain ⟨s', hrun, hrep⟩ := emplaceAt_agrees h hop
    exact ⟨s', _, _, hrun, .insert a v, hrep⟩
  | emplace a v =>
    obtain ⟨s', hrun, hrep⟩ := emplaceAt_agrees h hop
    exact ⟨s', _, _, hrun, .emplace a v, hrep⟩
  | subscript a k => exact subscript_agrees h hop
  | subscriptSet a k x => exact subscriptSet_agrees h x hop
  | find a k => exact find_agrees h hop k
  | contains a k => exact contains_agrees h hop k
  | count a k => exact count_agrees h hop k
  | size a => exact size_agrees h a
  | erase a k => exact erase_agrees h hop
  | eraseIter a it => exact eraseIter_agrees h hop
  | iterate a => exact iterate_agrees h hop
  | clear a => exact clear_agrees h a
  | reserve a n => exact reserve_agrees h a n
  | copyConstruct a b => exact copyConstruct_agrees h a b
  | copyAssign a b => exact copyAssign_agrees h a b
  | moveConstruct a b => exact moveConstruct_agrees h a b
  | moveAssign a b => exact moveAssign_agrees h a b
  | swap a b => exact swap_agrees h a b

/-! ### Whole runs -/

/-- **Refinement.** In a run of allowed operations no operation faults, all answers
are those of the finite maps run through the same operations, and at the end every
table stores exactly the elements of its map, each once. -/
theorem answers_agree (K : KeyHash κ) (P : Policy κ ν β) (ops : List (Op κ ν β))
    (hops : (service K P).Guarded (Allowed K P) (service K P).init ops) :
    ∃ s answers m, (service K P).run (service K P).init ops = .ok (s, answers) ∧
      Transition.SpecRun (MapStep K P) (fun _ => .empty) ops answers m ∧
      ∀ c, KeyedSet.Lists (s c).contents (m c) := by
  have hinit : Represents K P (service K P).init (fun _ => .empty) :=
    fun _ => ⟨.unallocated, lists_nil⟩
  obtain ⟨s, answers, m, hrun, hspec, hrep⟩ := Transition.Service.run_refines
    (S := service K P) (R := Represents K P) (fun _ _ op hR hC => step_agrees hR op hC)
    hinit hops
  exact ⟨s, answers, m, hrun, hspec, fun c => (hrep c).2⟩

/-- Two keys with neighbouring home slots: erasing the first leaves a tombstone. -/
def neighbourOps : List (Op Nat Unit Nat) :=
  [.insert 0 5, .insert 0 6, .eraseIter 0 5, .contains 0 6, .iterate 0]

theorem answers_agree_neighbours :
    ∃ s answers m, (service spreadKeys (flatHashSetPolicy Nat)).run
        (service spreadKeys (flatHashSetPolicy Nat)).init neighbourOps = .ok (s, answers) ∧
      Transition.SpecRun (MapStep spreadKeys (flatHashSetPolicy Nat)) (fun _ => .empty)
        neighbourOps answers m ∧
      ∀ c, KeyedSet.Lists (s c).contents (m c) := by
  apply answers_agree
  refine ⟨?_, fun s₁ o₁ h₁ => ?_⟩
  · rintro ⟨hcount, -⟩
    revert hcount
    decide
  cases h₁
  refine ⟨?_, fun s₂ o₂ h₂ => ?_⟩
  · rintro ⟨hcount, -⟩
    revert hcount
    decide +kernel
  cases h₂
  refine ⟨⟨⟨5, rfl⟩, ?_⟩, fun s₃ o₃ h₃ => ?_⟩
  · intro hnext
    exact absurd hnext (by decide +kernel)
  cases h₃
  have hcap : 32 ≠ 0 := by decide
  refine ⟨hcap, fun s₄ o₄ h₄ => ?_⟩
  cases h₄
  exact ⟨hcap, fun _ _ _ => trivial⟩

/-- All keys collide. -/
def collidingKeys : KeyHash Nat where
  hash _ := 0
  eq a b := a == b
  eq_refl := spreadKeys.eq_refl
  eq_symm := spreadKeys.eq_symm
  eq_trans := spreadKeys.eq_trans
  hash_eq _ _ _ := rfl

/-- Three colliding keys take the slots 0, 1 and 3; slot 2 stays unused. -/
def collidingOps : List (Op Nat Unit Nat) :=
  [.insert 0 1, .insert 0 2, .insert 0 3, .erase 0 2, .find 0 3, .insert 0 3]

/-- Erasing the middle key of `collidingOps` frees slot 1, because slot 2 is unused,
and cuts the chain of the third: it is not found any more, is inserted once again,
and no finite set gives these answers. -/
theorem erase_cuts_chain : ∃ s answers, (service collidingKeys (flatHashSetPolicy Nat)).run
        (service collidingKeys (flatHashSetPolicy Nat)).init collidingOps =
          .ok (s, answers) ∧
      answers = [.inserted 1 true, .inserted 2 true, .inserted 3 true, .number 1, .element none,
        .inserted 3 true] ∧
      (s 0).contents = [1, 3, 3] ∧
      ∀ m, ¬ Transition.SpecRun (MapStep collidingKeys (flatHashSetPolicy Nat)) (fun _ => .empty)
        collidingOps answers m := by
  refine ⟨_, _, rfl, rfl, rfl, fun m hspec => ?_⟩
  obtain ⟨m₁, h₁, hspec⟩ := hspec.cons_inv
  obtain ⟨m₂, h₂, hspec⟩ := hspec.cons_inv
  obtain ⟨m₃, h₃, hspec⟩ := hspec.cons_inv
  obtain ⟨m₄, h₄, hspec⟩ := hspec.cons_inv
  obtain ⟨m₅, h₅, -⟩ := hspec.cons_inv
  have hne : ∀ (a : Nat) (vs : List Nat), a ∉ vs →
      ∀ b ∈ vs, ¬ (keying collidingKeys (flatHashSetPolicy Nat)).same a b := by
    intro a vs ha b hb hsame
    rw [beq_iff_eq.mp hsame] at ha
    exact ha hb
  have hl₁ : KeyedSet.Lists [1] (m₁ 0) := by
    rw [h₁.insert_inv]
    exact lists_nil.insert_absent (by simp)
  have hl₂ : KeyedSet.Lists [2, 1] (m₂ 0) := by
    rw [h₂.insert_inv]
    exact hl₁.insert_absent (hne 2 [1] (by decide))
  have hl₃ : KeyedSet.Lists [3, 2, 1] (m₃ 0) := by
    rw [h₃.insert_inv]
    exact hl₂.insert_absent (hne 3 [2, 1] (by decide))
  have hl₄ : KeyedSet.Lists [3, 1] (m₄ 0) := by
    have hfront : KeyedSet.Lists [2, 3, 1] (m₃ 0) := hl₃.perm (.swap ..)
    rw [h₄.erase_inv]
    exact hfront.remove_cons (beq_self_eq_true 2)
  have hfind : (m₄ 0).find 3 = some 3 :=
    find_eq_some ((hl₄.2 3).mp (by simp)) (beq_self_eq_true 3)
  have hans := h₅.find_inv
  rw [hfind] at hans
  cases hans

end CxxKit.RawHashSet
