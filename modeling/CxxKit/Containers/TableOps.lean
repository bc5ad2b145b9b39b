import CxxKit.Containers.Rebuild

/-!
The operations that allocate: `reserve`, the constructors, the copies and
`emplace_impl`, on any table that operations can produce (`Laid`).

Each of them either hands a table on, rebuilds one from a list of elements
(`Rebuilds`), or inserts one element (`Emplaced`) into a table that was handed on
or rebuilt.
-/

namespace CxxKit.RawHashSet

open Table

variable {κ ν β : Type} {K : KeyHash κ} {P : Policy κ ν β} {cs : List (Cell β)} {t : Table β}

/-- The tables operations produce: without storage, or laid out from cells with a
valid capacity and a size within the threshold. -/
inductive Laid (K : KeyHash κ) (P : Policy κ ν β) : Table β → Prop where
  | unallocated : Laid K P unallocated
  | cells {cs : List (Cell β)} (sized : Sized cs) : Laid K P (ofCells K P cs)

theorem find_cases (hcap : PowerOfTwo cs.length) (k : κ) :
    (scanFor K P cs k = none ∧ find K P (ofCells K P cs) k = .error .diverges) ∨
      (∃ p v, scanFor K P cs k = some (.present p) ∧ cs[p]? = some (.full v) ∧
        K.eq k (P.key v) = true ∧ find K P (ofCells K P cs) k = .ok p) ∨
      (∃ q, scanFor K P cs k = some (.vacant q) ∧ find K P (ofCells K P cs) k = .ok cs.length) := by
  rw [find_ofCells hcap]
  cases hscan : scanFor K P cs k with
  | none => exact .inl ⟨rfl, rfl⟩
  | some r =>
    cases r with
    | present p =>
      obtain ⟨v, hv, heq⟩ := scan_present_inv hscan
      exact .inr (.inl ⟨p, v, rfl, hv, heq, rfl⟩)
    | vacant q => exact .inr (.inr ⟨q, rfl, rfl⟩)

section Endless

variable (k : κ) (fuel : Nat)

variable (hcap : PowerOfTwo cs.length)
include hcap

theorem scan_endless (h : scanFor K P cs k = none) (fd : Option Nat) :
    scan K P cs k ((ProbeSeq.start (K.hash k) (cs.length - 1)).positions fuel) fd = none := by
  have hall : ∀ p, p < cs.length → Passes K P cs k p := fun p hp =>
    scan_none_inv (fun p hp => hcap.mem_path_iff.mp hp) h p (hcap.mem_path_iff.mpr hp)
  exact scan_eq_none (fun p hp => hall p (hcap.positions_lt _ fuel p hp)) fd

/-- A lookup that has not stopped after `mCapacity` rounds never stops, since it has passed every
slot by then. -/
theorem findLoop_endless (h : find K P (ofCells K P cs) k = .error .diverges) :
    findLoop K P (ofCells K P cs) k fuel (.start (K.hash k) (cs.length - 1)) =
      .error .diverges := by
  obtain ⟨hscan, -⟩ | ⟨p, v, -, -, -, hfind⟩ | ⟨q, -, hfind⟩ :=
    find_cases hcap k
  · rw [findLoop_ofCells fuel _ (hcap.positions_lt _ fuel) none, scan_endless k fuel hcap hscan]
  · rw [h] at hfind
    cases hfind
  · rw [h] at hfind
    cases hfind

/-- Neither does an insertion probe. -/
theorem probeLoop_endless (h : probe K P (ofCells K P cs) k = .error .diverges) :
    probeLoop K P (ofCells K P cs) k fuel (.start (K.hash k) (cs.length - 1)) cs.length =
      .error .diverges := by
  cases hscan : scanFor K P cs k with
  | none =>
    have hloop := probeLoop_ofCells (K := K) (P := P) (k := k) fuel _
      (hcap.positions_lt (K.hash k) fuel) none (by simp)
    rw [scan_endless k fuel hcap hscan] at hloop
    exact hloop
  | some r =>
    rw [probe_ofCells hcap, hscan] at h
    cases h

end Endless

/-- `find(k) != end()`, given what `find` returned. -/
theorem ne_sentinel {p : Nat} {v : β} (hp : cs[p]? = some (.full v)) : p ≠ cs.length :=
  (List.getElem?_eq_some_iff.mp hp).1.ne

variable {k : κ} {it cap n : Nat}

theorem contains_ofCells (h : find K P (ofCells K P cs) k = .ok it) :
    contains K P (ofCells K P cs) k = .ok (it != cs.length) := by
  simp [contains, h, sentinel_ofCells]

theorem count_ofCells (h : find K P (ofCells K P cs) k = .ok it) :
    count K P (ofCells K P cs) k = .ok (if it != cs.length then 1 else 0) := by
  simp [count, h, sentinel_ofCells]

theorem erase_absent (h : find K P (ofCells K P cs) k = .ok cs.length) :
    erase K P (ofCells K P cs) k = .ok (ofCells K P cs, 0) := by
  simp [erase, h, sentinel_ofCells]

theorem erase_present (hcap : ValidCapacity cs.length) {p : Nat} {v : β}
    (h : find K P (ofCells K P cs) k = .ok p) (hp : cs[p]? = some (.full v)) :
    erase K P (ofCells K P cs) k = .ok (ofCells K P (cs.set p (erasedCell cs p)), 1) := by
  simp [erase, h, sentinel_ofCells, ne_sentinel hp, eraseAt_ofCells hcap hp]

/-! ### Choosing a capacity -/

/-- `while (f(cap) < n) cap *= 2` stops, for a measure that doubling increases. -/
theorem doubleUntil_ok {f : Nat → Nat} (hf : ∀ c, ValidCapacity c → f c + 1 ≤ f (c * 2))
    (fuel : Nat) {c : Nat} (hc : ValidCapacity c) (hfuel : n ≤ f c + fuel) :
    ∃ c', doubleUntil (fun c => !decide (f c < n)) (fuel + 1) c = .ok c' ∧ ValidCapacity c' ∧
      n ≤ f c' ∧ c ≤ c' := by
  induction fuel generalizing c with
  | zero =>
    have hnot : ¬ f c < n := by omega
    exact ⟨c, by simp [doubleUntil, hnot], hc, by omega, le_rfl⟩
  | succ fuel ih =>
    by_cases hlt : f c < n
    · have := hf c hc
      obtain ⟨c', hrun, hc', hn, hle⟩ := ih hc.double (by omega)
      refine ⟨c', ?_, hc', hn, by omega⟩
      rw [doubleUntil]
      simpa [hlt] using hrun
    · exact ⟨c, by simp [doubleUntil, hlt], hc, by omega, le_rfl⟩

theorem fresh_rebuilds (hcap : ValidCapacity cap) : Rebuilds K P cap (.ok (fresh cap)) [] :=
  @fold_rebuilds _ _ _ K P [] _ 0 hcap (Nat.zero_le _)

theorem reserve_cases (h : Laid K P t) (n : Nat) :
    (n ≤ growthThreshold t.mCapacity ∧ reserve K P t n = .ok t) ∨
      ∃ cap, Rebuilds K P cap (reserve K P t n) t.contents := by
  by_cases hn : n > growthThreshold t.mCapacity
  · right
    have hgrow : ∀ c, ValidCapacity c → growthThreshold c + 1 ≤ growthThreshold (c * 2) :=
      fun c hc => hc.threshold_double
    cases h with
    | unallocated =>
      obtain ⟨c, hrun, hc, -, -⟩ := doubleUntil_ok hgrow n validCapacity_min (Nat.le_add_left ..)
      refine ⟨c, ?_⟩
      have heq : reserve K P unallocated n = .ok (fresh c) := by
        rw [reserve, if_pos hn]
        simp only [unallocated, if_true, hrun, ok_bind]
        rfl
      rw [heq]
      exact fresh_rebuilds hc
    | @cells cs sized =>
      obtain ⟨c, hrun, hc, -, hle⟩ := doubleUntil_ok hgrow n sized.capacity (Nat.le_add_left ..)
      refine ⟨c, ?_⟩
      have heq : reserve K P (ofCells K P cs) n = resize K P (ofCells K P cs) c := by
        have hne : (ofCells K P cs).mCapacity ≠ 0 := sized.capacity.pos.ne'
        rw [reserve, if_pos hn, if_neg hne, ofCells_mCapacity, hrun]
        rfl
      rw [heq, contents_ofCells]
      exact resizeWith_rebuilds 1 hc (sized.size.trans (growthThreshold_mono hle))
  · exact .inl ⟨Nat.le_of_not_lt hn, if_neg hn⟩

theorem ofHint_cases (hint : Nat) : (ofHint K P hint : Except Fault (Table β)) = .ok unallocated ∨
      ∃ cap, Rebuilds K P cap (ofHint K P hint) [] := by
  by_cases hh : hint > 0
  · right
    obtain ⟨c, hrun, hc, -, -⟩ := doubleUntil_ok (f := id)
      (fun c hc => by have := hc.pos; simp only [id]; omega) hint validCapacity_min
      (Nat.le_add_left ..)
    refine ⟨c, ?_⟩
    have heq : (ofHint K P hint : Except Fault (Table β)) = .ok (fresh c) := by
      rw [ofHint, if_pos hh]
      simp only [id] at hrun
      simp only [hrun, ok_bind]
      rfl
    rw [heq]
    exact fresh_rebuilds hc
  · exact .inl (if_neg hh)

/-! ### Copies -/

theorem copyFrom_rebuilds (hcap : ValidCapacity cap) (hs : Sized cs) (hle : cs.length ≤ cap) :
    Rebuilds K P cap (copyFrom K P (fresh cap) (ofCells K P cs)) (values cs) := by
  rw [copyFrom, elements_ofCells hs.capacity.powerOfTwo]
  exact fold_rebuilds 1 hcap (hs.size.trans (growthThreshold_mono hle))

theorem copyConstruct_cases (h : Laid K P t) :
    (t = unallocated ∧ copyConstruct K P t = .ok unallocated) ∨
      ∃ cap, Rebuilds K P cap (copyConstruct K P t) t.contents := by
  cases h with
  | unallocated => exact .inl ⟨rfl, rfl⟩
  | @cells cs sized =>
    refine .inr ⟨cs.length, ?_⟩
    have heq : copyConstruct K P (ofCells K P cs) =
        copyFrom K P (fresh cs.length) (ofCells K P cs) := by
      rw [copyConstruct, ofCells_mCapacity, if_pos sized.capacity.pos]
      rfl
    rw [heq, contents_ofCells]
    exact copyFrom_rebuilds sized.capacity sized le_rfl

/-- A cleared table is without storage or as good as new. -/
theorem clear_cases (h : Laid K P t) : (t = unallocated ∧ t.clear = unallocated) ∨
      ∃ cap, ValidCapacity cap ∧ t.mCapacity = cap ∧ t.clear = fresh cap := by
  cases h with
  | unallocated => exact .inl ⟨rfl, rfl⟩
  | @cells cs sized =>
    refine .inr ⟨cs.length, sized.capacity, rfl, ?_⟩
    rw [clear_ofCells sized.capacity, fresh_eq_ofCells]

theorem copyAssign_cases {o : Table β} (ht : Laid K P t) (ho : Laid K P o) :
    (o = unallocated ∧ copyAssign K P t o = .ok t.clear) ∨
      ∃ cap, Rebuilds K P cap (copyAssign K P t o) o.contents := by
  cases ho with
  | unallocated => exact .inl ⟨rfl, rfl⟩
  | @cells cs sized =>
    right
    rw [contents_ofCells]
    have hcap := sized.capacity
    -- whatever the target was, the elements go into an all-empty table that is large enough
    have hbase : ∃ cap, ValidCapacity cap ∧ cs.length ≤ cap ∧
        copyAssign K P t (ofCells K P cs) = copyFrom K P (fresh cap) (ofCells K P cs) := by
      have hpos : (ofCells K P cs).mCapacity > 0 := hcap.pos
      rw [copyAssign, if_pos hpos]
      obtain ⟨-, hclear⟩ | ⟨cap, hc, -, hclear⟩ := clear_cases ht
      · refine ⟨cs.length, hcap, le_rfl, ?_⟩
        have hlt : (unallocated : Table β).mCapacity < (ofCells K P cs).mCapacity := hcap.pos
        rw [hclear, if_pos hlt]
        rfl
      · rw [hclear]
        by_cases hlt : (fresh cap : Table β).mCapacity < (ofCells K P cs).mCapacity
        · refine ⟨cs.length, hcap, le_rfl, ?_⟩
          have hresize : resize K P (fresh cap : Table β) cs.length = .ok (fresh cs.length) := by
            rw [resize, fresh_eq_ofCells (K := K) (P := P) cap,
              (wellFormed_ofCells _).resizeWith_eq]
            simp [pure, Except.pure]
          rw [if_pos hlt, ofCells_mCapacity, hresize]
          rfl
        · exact ⟨cap, hc, Nat.le_of_not_lt hlt, if_neg hlt⟩
    obtain ⟨cap, hc, hle, heq⟩ := hbase
    refine ⟨cap, ?_⟩
    rw [heq]
    exact copyFrom_rebuilds hc sized hle

/-! ### Inserting one element -/

theorem bind_eq_ok {ε α γ : Type} {x : Except ε α} {f : α → Except ε γ} {c : γ}
    (h : x.bind f = .ok c) : ∃ a, x = .ok a ∧ f a = .ok c := by
  cases x with
  | error e => cases h
  | ok a => exact ⟨a, rfl, h⟩

/-- Everything `emplace_impl` can do: probe forever, finish in the table it was
given, or rebuild the table and finish there. -/
inductive Emplacing (K : KeyHash κ) (P : Policy κ ν β) (v : β) :
    Table β → Except Fault (Table β × Nat × Bool) → Prop where
  | stuck {cs : List (Cell β)} (sized : Sized cs) (endless : scanFor K P cs (P.key v) = none) :
      Emplacing K P v (ofCells K P cs) (.error .diverges)
  | here {cs ds : List (Cell β)} {it : Nat} {new : Bool} (sized : Sized cs)
      (emplaced : Emplaced K P cs v ds it new) :
      Emplacing K P v (ofCells K P cs) (.ok (ofCells K P ds, it, new))
  | after {t : Table β} {cap depth : Nat} {r : Except Fault (Table β)}
      (rebuilds : Rebuilds K P cap r t.contents)
      (room : t.contents.length + 1 ≤ growthThreshold cap) :
      Emplacing K P v t (r.bind fun t => emplaceWith K P (depth + 1) t v)

theorem ValidCapacity.threshold_pos (h : ValidCapacity n) : 1 ≤ growthThreshold n :=
  le_trans (by decide) (growthThreshold_mono h.le)

theorem emplaceImpl_cases (h : Laid K P t) (v : β) : Emplacing K P v t (emplaceImpl K P t v) := by
  rw [emplaceImpl_eq]
  cases h with
  | unallocated =>
    obtain ⟨hle, -⟩ | ⟨cap, hreb⟩ :=
      reserve_cases Laid.unallocated kMinCapacity
    · exact absurd hle (show ¬ kMinCapacity ≤ growthThreshold 0 by decide)
    · exact .after hreb hreb.capacity.threshold_pos
  | @cells cs sized =>
    have hcap := sized.capacity
    rw [if_neg (show (ofCells K P cs).mCapacity ≠ 0 from hcap.pos.ne'), Except.bind]
    cases hscan : scanFor K P cs (P.key v) with
    | none =>
      rw [emplaceWith_none hcap.powerOfTwo hscan]
      exact .stuck sized hscan
    | some r =>
      cases r with
      | present p =>
        rw [emplaceWith_present hcap.powerOfTwo hscan]
        exact .here sized (.present hscan)
      | vacant q =>
        by_cases hroom : (values cs).length + 1 ≤ growthThreshold cs.length
        · rw [emplaceWith_filled hcap.powerOfTwo hscan hroom]
          exact .here sized (.filled hscan hroom)
        · have hdouble := hcap.threshold_double
          have hsize := sized.size
          rw [emplaceWith_grow hcap.powerOfTwo hscan (Nat.lt_of_not_le hroom)]
          have hreb : Rebuilds K P (cs.length * 2) (resizeWith P
              (findOrPrepareInsertAt K P 1) (ofCells K P cs) (cs.length * 2))
              (ofCells K P cs).contents := by
            rw [contents_ofCells]
            exact resizeWith_rebuilds 0 hcap.double (by omega)
          refine .after hreb ?_
          rw [contents_ofCells]
          omega

/-- The cells an element is finally inserted into: those of the table, or those of
a table rebuilt from its elements with room for one more. -/
inductive Prepared (K : KeyHash κ) (P : Policy κ ν β) : Table β → List (Cell β) → Prop where
  | same {cs : List (Cell β)} (sized : Sized cs) : Prepared K P (ofCells K P cs) cs
  | rebuilt {t : Table β} {cs : List (Cell β)} (capacity : ValidCapacity cs.length)
      (room : (values cs).length + 1 ≤ growthThreshold cs.length) (tomb : NoTombstones cs)
      (perm : (values cs).Perm t.contents)
      (chained : KeysDistinct K P t.contents → Chained K P cs) : Prepared K P t cs

theorem Prepared.sized (h : Prepared K P t cs) : Sized cs := by
  cases h with
  | same sized => exact sized
  | rebuilt capacity room => exact ⟨capacity, by omega⟩

theorem Prepared.perm (h : Prepared K P t cs) : (values cs).Perm t.contents := by
  cases h with
  | same sized => simp
  | rebuilt capacity room tomb perm chained => exact perm

/-- What an insertion that succeeds has done. -/
theorem emplaceImpl_inv (h : Laid K P t) {v : β} {t' : Table β} {new : Bool}
    (hrun : emplaceImpl K P t v = .ok (t', it, new)) :
    ∃ base ds, Prepared K P t base ∧ Emplaced K P base v ds it new ∧ t' = ofCells K P ds := by
  have hcases := emplaceImpl_cases h v
  rw [hrun] at hcases
  generalize hres : Except.ok (t', it, new) = res at hcases
  cases hcases with
  | stuck sized endless => cases hres
  | here sized emplaced =>
    cases hres
    exact ⟨_, _, .same sized, emplaced, rfl⟩
  | after rebuilds room =>
    obtain ⟨t₁, ht₁, hlast⟩ := bind_eq_ok hres.symm
    obtain ⟨base, rfl, hlen, htomb, hperm, hch⟩ := rebuilds.built ht₁
    have hcap : ValidCapacity base.length := hlen ▸ rebuilds.capacity
    have hroom : (values base).length + 1 ≤ growthThreshold base.length := by
      rw [hperm.length_eq, hlen]
      exact room
    obtain ⟨ds, rfl, hemp⟩ := emplaceWith_inv hcap.powerOfTwo hroom hlast
    exact ⟨base, ds, .rebuilt hcap hroom htomb hperm hch, hemp, rfl⟩

/-- Inserting succeeds when the keys are pairwise different and an allocated table
has an unused slot. -/
theorem emplaceImpl_ok (h : Laid K P t) (hkeys : KeysDistinct K P t.contents)
    (hunused : ∀ cs, t = ofCells K P cs → 0 < unused cs) (v : β) :
    ∃ t' it new, emplaceImpl K P t v = .ok (t', it, new) := by
  have hcases := emplaceImpl_cases h v
  generalize hres : emplaceImpl K P t v = res at hcases
  cases hcases with
  | stuck sized endless =>
    obtain ⟨r, hr⟩ := scanFor_isSome sized.capacity.powerOfTwo (hunused _ rfl) (P.key v)
    rw [endless] at hr
    cases hr
  | here sized emplaced => exact ⟨_, _, _, rfl⟩
  | @after _ _ depth _ rebuilds room =>
    obtain ⟨base, rfl, -⟩ := rebuilds.ok hkeys
    obtain ⟨ds, heq, hlen, htomb, hperm⟩ := rebuilds.inv _ rfl
    rw [heq]
    have hcap : ValidCapacity ds.length := hlen ▸ rebuilds.capacity
    have hroom : (values ds).length + 1 ≤ growthThreshold ds.length := by
      rw [hperm.length_eq, hlen]
      exact room
    have hpos : 0 < unused ds := htomb.unused_pos ⟨hcap, by omega⟩
    obtain ⟨es, it, new, hes⟩ :=
      emplaceWith_ok hcap.powerOfTwo hroom hpos v depth
    exact ⟨_, _, _, hes⟩

/-! ### What an insertion leaves behind -/

variable {ds : List (Cell β)} {v : β} {new : Bool}

section

variable (h : Emplaced K P cs v ds it new)

include h

theorem Emplaced.length : ds.length = cs.length := by
  cases h with
  | present found => rfl
  | filled free room => exact List.length_set ..

theorem Emplaced.sized (hs : Sized cs) : Sized ds := by
  refine ⟨h.length ▸ hs.capacity, ?_⟩
  cases h with
  | present found => exact hs.size
  | filled free room =>
    rw [(values_fill hs.capacity.powerOfTwo free v).length_eq, List.length_set]
    exact room

/-- The iterator points at an element with the key; a present key changes nothing,
a new one adds exactly its element. -/
theorem Emplaced.slot (hcap : ValidCapacity cs.length) :
    (new = false ∧ ds = cs ∧ ∃ w, ds[it]? = some (.full w) ∧ K.eq (P.key v) (P.key w) = true) ∨
      (new = true ∧ ds[it]? = some (.full v) ∧ (values ds).Perm (v :: values cs)) := by
  cases h with
  | present found => exact .inl ⟨rfl, rfl, scan_present_inv found⟩
  | filled free room =>
    obtain ⟨c, hq, -⟩ := scanFor_vacant_cell hcap.powerOfTwo free
    have hlt : it < cs.length := (List.getElem?_eq_some_iff.mp hq).1
    exact .inr ⟨rfl, List.getElem?_set_self hlt, values_fill hcap.powerOfTwo free v⟩

theorem Emplaced.chained (hch : Chained K P cs) : Chained K P ds := by
  cases h with
  | present found => exact hch
  | filled free room =>
    exact hch.set_full ((scanFor_vacant_inv hch.capacity.powerOfTwo free).2 v (K.eq_refl _))
      (scanFor_vacant_absent hch.capacity.powerOfTwo hch.reached free)

end

theorem Emplaced.absent (h : Emplaced K P cs v ds it true) (hch : Chained K P cs) :
    ∀ w ∈ values cs, K.eq (P.key v) (P.key w) = false := by
  cases h with
  | filled free room => exact scanFor_vacant_absent hch.capacity.powerOfTwo hch.reached free

theorem Emplaced.noTombstones (h : Emplaced K P cs v ds it new) (ht : NoTombstones cs) :
    NoTombstones ds := by
  cases h with
  | present found => exact ht
  | filled free room => exact ht.set_full _ _

end CxxKit.RawHashSet
