import Mathlib.Data.List.TakeWhile
import CxxKit.Containers.Cells

/-!
Probe chains: which slots a probe passes, and what keeps every element findable.

`Reached` is the reachability invariant of the table: no slot on the probe path
of an element, before the slot that holds it, is unused.  Insertion and
tombstones keep it; turning an erased slot back into an unused one keeps it only
when the slot lies on no other element's chain (`OffChains`).
-/

namespace CxxKit.RawHashSet

open Cell List Option

variable {κ ν β : Type} {K : KeyHash κ} {P : Policy κ ν β} {cs : List (Cell β)}

/-! ### Where a scan stops -/

/-- The probe for `k` walks past slot `p`. -/
def Passes (K : KeyHash κ) (P : Policy κ ν β) (cs : List (Cell β)) (k : κ) (p : Nat) : Prop :=
  cs[p]? = some .deleted ∨ ∃ v, cs[p]? = some (.full v) ∧ K.eq k (P.key v) = false

variable {k : κ} {ps : List Nat} {fd : Option Nat} {q e j i : Nat} {v : β}

theorem scan_append_of_passes {pre : List Nat} (h : ∀ p ∈ pre, Passes K P cs k p)
    (ps : List Nat) (fd : Option Nat) :
    ∃ fd', scan K P cs k (pre ++ ps) fd = scan K P cs k ps fd' := by
  induction pre generalizing fd with
  | nil => exact ⟨fd, rfl⟩
  | cons p pre ih =>
    have hrest := ih (fun q hq => h q (mem_cons_of_mem _ hq))
    rcases h p (mem_cons_self ..) with hdel | ⟨v, hfull, hne⟩
    · obtain ⟨fd', hfd'⟩ := hrest (some (fd.getD p))
      exact ⟨fd', by simpa [scan, hdel] using hfd'⟩
    · obtain ⟨fd', hfd'⟩ := hrest fd
      exact ⟨fd', by simpa [scan, hfull, hne] using hfd'⟩

theorem scan_present_inv {p : Nat} (h : scan K P cs k ps fd = some (.present p)) :
    ∃ v, cs[p]? = some (.full v) ∧ K.eq k (P.key v) = true := by
  induction ps generalizing fd with
  | nil => simp [scan] at h
  | cons q ps ih =>
    simp only [scan] at h
    split at h
    next v hv =>
      split at h
      next heq =>
        cases h
        exact ⟨v, hv, heq⟩
      · exact ih h
    · cases h
    · exact ih h
    · cases h

/-- A scan that ends at a free slot has walked past everything before an unused
slot, and offers the first tombstone it passed, or that slot if it passed none. -/
theorem scan_vacant_inv (h : scan K P cs k ps fd = some (.vacant q)) :
    ∃ pre e post, ps = pre ++ e :: post ∧ cs[e]? = some .empty ∧
      (∀ p ∈ pre, Passes K P cs k p) ∧
      (fd = some q ∨ (fd = none ∧ q = e ∧ ∀ p ∈ pre, cs[p]? ≠ some .deleted) ∨
        (fd = none ∧ q ∈ pre ∧ cs[q]? = some .deleted)) := by
  induction ps generalizing fd with
  | nil => simp [scan] at h
  | cons p ps ih =>
    simp only [scan] at h
    split at h
    next v hv =>
      split at h
      · cases h
      next hne =>
        obtain ⟨pre, e, post, rfl, he, hpass, hq⟩ := ih h
        refine ⟨p :: pre, e, post, rfl, he, ?_, ?_⟩
        · exact forall_mem_cons.mpr ⟨.inr ⟨v, hv, Bool.eq_false_iff.mpr hne⟩, hpass⟩
        · rcases hq with hq | ⟨hnone, hqe, hnot⟩ | ⟨hnone, hmem, hdel⟩
          · exact .inl hq
          · exact .inr (.inl ⟨hnone, hqe, forall_mem_cons.mpr ⟨by simp [hv], hnot⟩⟩)
          · exact .inr (.inr ⟨hnone, mem_cons_of_mem _ hmem, hdel⟩)
    next he =>
      refine ⟨[], p, ps, rfl, he, by simp, ?_⟩
      cases fd with
      | none =>
        cases h
        exact .inr (.inl ⟨rfl, rfl, by simp⟩)
      | some r =>
        cases h
        exact .inl rfl
    next hdel =>
      obtain ⟨pre, e, post, rfl, he, hpass, hq⟩ := ih h
      refine ⟨p :: pre, e, post, rfl, he, ?_, ?_⟩
      · exact forall_mem_cons.mpr ⟨.inl hdel, hpass⟩
      · rcases hq with hq | ⟨hnone, -⟩ | ⟨hnone, -⟩
        · cases fd with
          | none =>
            cases hq
            exact .inr (.inr ⟨rfl, mem_cons_self .., hdel⟩)
          | some r => exact .inl hq
        · cases hnone
        · cases hnone
    · cases h

/-- A scan that passes only other elements before an unused slot offers that slot. -/
theorem scan_vacant_of_full {pre post : List Nat} (he : cs[e]? = some .empty)
    (hpre : ∀ p ∈ pre, ∃ v, cs[p]? = some (.full v) ∧ K.eq k (P.key v) = false) :
    scan K P cs k (pre ++ e :: post) none = some (.vacant e) := by
  induction pre with
  | nil => simp [scan, he]
  | cons p pre ih =>
    obtain ⟨v, hv, hne⟩ := hpre p (mem_cons_self ..)
    have hrest := ih fun q hq => hpre q (mem_cons_of_mem _ hq)
    simpa [scan, hv, hne] using hrest

/-- A scan over slots of the table that meets an unused slot stops. -/
theorem scan_ne_none (hlt : ∀ p ∈ ps, p < cs.length)
    (he : e ∈ ps) (hempty : cs[e]? = some .empty) (fd : Option Nat) :
    scan K P cs k ps fd ≠ none := by
  induction ps generalizing fd with
  | nil => cases he
  | cons p ps ih =>
    obtain ⟨c, hget⟩ : ∃ c, cs[p]? = some c :=
      ⟨_, getElem?_eq_getElem (hlt p (mem_cons_self ..))⟩
    have hrest : c ≠ .empty → ∀ fd, scan K P cs k ps fd ≠ none := by
      intro hne fd
      rcases mem_cons.mp he with rfl | h
      · rw [hempty] at hget
        cases hget
        exact absurd rfl hne
      · exact ih (fun q hq => hlt q (mem_cons_of_mem _ hq)) h fd
    rw [scan, hget]
    cases c with
    | empty => simp
    | deleted => exact hrest (by simp) _
    | full v =>
      simp only
      split
      · simp
      · exact hrest (by simp) _

/-- A scan over slots of the table that meets neither an equal key nor an unused
slot does not stop. -/
theorem scan_eq_none (h : ∀ p ∈ ps, Passes K P cs k p)
    (fd : Option Nat) : scan K P cs k ps fd = none := by
  obtain ⟨fd', hfd'⟩ := scan_append_of_passes h [] fd
  rw [append_nil] at hfd'
  rw [hfd']
  rfl

theorem scan_none_inv (hlt : ∀ p ∈ ps, p < cs.length)
    (h : scan K P cs k ps fd = none) : ∀ p ∈ ps, Passes K P cs k p := by
  induction ps generalizing fd with
  | nil => simp
  | cons q ps ih =>
    have hrest : ∀ {fd : Option Nat}, scan K P cs k ps fd = none →
        ∀ p ∈ ps, Passes K P cs k p :=
      ih fun p hp => hlt p (mem_cons_of_mem _ hp)
    obtain ⟨c, hget⟩ : ∃ c, cs[q]? = some c :=
      ⟨_, getElem?_eq_getElem (hlt q (mem_cons_self ..))⟩
    rw [scan, hget] at h
    cases c with
    | empty => cases h
    | deleted => exact forall_mem_cons.mpr ⟨.inl hget, hrest h⟩
    | full v =>
      simp only at h
      split at h
      · cases h
      next hne =>
        exact forall_mem_cons.mpr
          ⟨.inr ⟨v, hget, Bool.eq_false_iff.mpr hne⟩, hrest h⟩

/-! ### The reachability invariant -/

/-- The slots probed for an element before the one that holds it. -/
def chain (K : KeyHash κ) (P : Policy κ ν β) (cs : List (Cell β)) (v : β) (j : Nat) : List Nat :=
  (path cs.length (K.hash (P.key v))).takeWhile fun p => p != j

/-- No slot on the chain of an element is unused. -/
def Reached (K : KeyHash κ) (P : Policy κ ν β) (cs : List (Cell β)) : Prop :=
  ∀ j v, cs[j]? = some (.full v) → ∀ p ∈ chain K P cs v j, cs[p]? ≠ some .empty

/-- No two slots hold elements with equal keys. -/
def Distinct (K : KeyHash κ) (P : Policy κ ν β) (cs : List (Cell β)) : Prop :=
  ∀ (i j : Nat) (v w : β), cs[i]? = some (.full v) → cs[j]? = some (.full w) →
    K.eq (P.key v) (P.key w) = true → i = j

/-- Slot `i` lies on no chain of an element stored elsewhere. -/
def OffChains (K : KeyHash κ) (P : Policy κ ν β) (cs : List (Cell β)) (i : Nat) : Prop :=
  ∀ j w, j ≠ i → cs[j]? = some (.full w) → i ∉ chain K P cs w j

section

variable (hcap : PowerOfTwo cs.length)
include hcap

theorem path_eq_chain_append (hj : j < cs.length) (v : β) :
    ∃ post, path cs.length (K.hash (P.key v)) = chain K P cs v j ++ j :: post := by
  have hmem : j ∈ path cs.length (K.hash (P.key v)) := hcap.mem_path_iff.mpr hj
  obtain ⟨pre, post, hsplit⟩ := append_of_mem hmem
  have hnodup := hcap.path_nodup (K.hash (P.key v))
  refine ⟨post, ?_⟩
  rw [chain, hsplit]
  have hpre : ∀ p ∈ pre, (p != j) = true := by
    intro p hp
    rw [hsplit] at hnodup
    have hdisj := (nodup_append.mp hnodup).2.2 p hp j (mem_cons_self ..)
    simpa using hdisj
  rw [takeWhile_append_of_pos hpre]
  simp

/-- What a table must satisfy for lookups to agree with the set of its elements. -/
structure Chained (K : KeyHash κ) (P : Policy κ ν β) (cs : List (Cell β)) : Prop where
  capacity : ValidCapacity cs.length
  reached : Reached K P cs
  distinct : Distinct K P cs

/-- A key that no element has gets a free slot, every earlier slot of its path
being in use. -/
theorem scanFor_vacant (hempty : cs[e]? = some .empty)
    (habsent : ∀ v ∈ values cs, K.eq k (P.key v) = false) :
    ∃ q, scanFor K P cs k = some (.vacant q) := by
  have hlt : e < cs.length := (List.getElem?_eq_some_iff.mp hempty).1
  have hsome : scanFor K P cs k ≠ none := scan_ne_none (fun p hp => hcap.mem_path_iff.mp hp)
    (hcap.mem_path_iff.mpr hlt) hempty none
  cases hscan : scanFor K P cs k with
  | none => exact absurd hscan hsome
  | some r =>
    cases r with
    | vacant q => exact ⟨q, rfl⟩
    | present p =>
      obtain ⟨v, hv, heq⟩ := scan_present_inv hscan
      have := habsent v (mem_values.mpr (mem_of_getElem? hv))
      rw [heq] at this
      cases this

/-- The slot offered to a new key is free, and nothing before it on the key's
path is unused. -/
theorem scanFor_vacant_inv (h : scanFor K P cs k = some (.vacant q)) :
    (cs[q]? = some .empty ∨ cs[q]? = some .deleted) ∧
      ∀ v, K.eq k (P.key v) = true → ∀ p ∈ chain K P cs v q, cs[p]? ≠ some .empty := by
  obtain ⟨pre, e, post, hpath, he, hpass, hq⟩ := scan_vacant_inv h
  have hnot : ∀ p ∈ pre, cs[p]? ≠ some .empty := by
    intro p hp hempty
    rcases hpass p hp with hdel | ⟨v, hfull, -⟩
    · rw [hempty] at hdel
      cases hdel
    · rw [hempty] at hfull
      cases hfull
  -- the offered slot ends a prefix of `pre ++ [e]`, so its chain stays inside `pre`
  have hchain : ∀ p ∈ (path cs.length (K.hash k)).takeWhile (fun p => p != q), p ∈ pre := by
    intro p hp
    rw [hpath] at hp
    have hnodup := hcap.path_nodup (K.hash k)
    rw [hpath] at hnodup
    rcases hq with hq | ⟨-, rfl, -⟩ | ⟨-, hmem, -⟩
    · cases hq
    · have hpre : ∀ p ∈ pre, (p != q) = true := by
        intro p hp
        simpa using (nodup_append.mp hnodup).2.2 p hp q (mem_cons_self ..)
      rw [takeWhile_append_of_pos hpre] at hp
      simpa using hp
    · obtain ⟨pre₁, pre₂, rfl⟩ := append_of_mem hmem
      have hpre : ∀ p ∈ pre₁, (p != q) = true := by
        intro p hp
        have hnodup := (nodup_append.mp hnodup).1
        simpa using (nodup_append.mp hnodup).2.2 p hp q (mem_cons_self ..)
      rw [append_assoc, takeWhile_append_of_pos hpre] at hp
      have : p ∈ pre₁ := by simpa using hp
      exact mem_append_left _ this
  refine ⟨?_, fun v hv p hp => ?_⟩
  · rcases hq with hq | ⟨-, rfl, -⟩ | ⟨-, -, hdel⟩
    · cases hq
    · exact .inl he
    · exact .inr hdel
  · rw [chain, ← K.hash_eq _ _ hv] at hp
    exact hnot p (hchain p hp)

theorem scanFor_vacant_cell (h : scanFor K P cs k = some (.vacant q)) :
    ∃ c, cs[q]? = some c ∧ c.value? = none :=
  (scanFor_vacant_inv hcap h).1.elim (fun hq => ⟨_, hq, rfl⟩) fun hq => ⟨_, hq, rfl⟩

theorem scanFor_vacant_absent (hreach : Reached K P cs) (h : scanFor K P cs k = some (.vacant q)) :
    ∀ v ∈ values cs, K.eq k (P.key v) = false := by
  intro v hv
  rw [Bool.eq_false_iff]
  intro heq
  obtain ⟨j, hj⟩ := mem_iff_getElem?.mp (mem_values.mp hv)
  have hlt : j < cs.length := (List.getElem?_eq_some_iff.mp hj).1
  obtain ⟨pre, e, post, hpath, he, hpass, -⟩ := scan_vacant_inv h
  obtain ⟨post', hpath'⟩ := path_eq_chain_append hcap hlt v
  rw [← K.hash_eq _ _ heq, hpath] at hpath'
  -- `j` is not among the slots walked past, so the unused slot `e` is on its chain
  rcases append_eq_append_iff.mp hpath' with ⟨as, hchain, htail⟩ | ⟨as, hpre, htail⟩
  · cases as with
    | nil =>
      cases htail
      rw [he] at hj
      cases hj
    | cons a as =>
      cases htail
      have hmem : e ∈ chain K P cs v j := by
        rw [hchain]
        simp
      exact hreach j v hj e hmem he
  · have hmem : j ∈ pre ∨ j = e := by
      cases as with
      | nil =>
        cases htail
        exact .inr rfl
      | cons a as =>
        cases htail
        rw [hpre]
        exact .inl (by simp)
    rcases hmem with hmem | rfl
    · rcases hpass j hmem with hdel | ⟨w, hw, hne⟩
      · rw [hj] at hdel
        cases hdel
      · rw [hj] at hw
        cases hw
        rw [heq] at hne
        cases hne
    · rw [hj] at he
      cases he

end

/-! ### What updates keep -/

@[simp] theorem chain_set (v : β) (j i : Nat) (c : Cell β) :
    chain K P (cs.set i c) v j = chain K P cs v j := by
  simp [chain]

theorem getElem?_set_ne (h : i ≠ j) (c : Cell β) : (cs.set i c)[j]? = cs[j]? :=
  List.getElem?_set_ne h

/-- A slot of an updated table holds what it held before, or is the updated slot. -/
theorem getElem?_set_cases {c d : Cell β} (h : (cs.set i c)[j]? = some d) :
    (j = i ∧ d = c) ∨ (j ≠ i ∧ cs[j]? = some d) := by
  by_cases hij : i = j
  · subst hij
    have hlt : i < (cs.set i c).length := (List.getElem?_eq_some_iff.mp h).1
    rw [length_set] at hlt
    rw [getElem?_set_self hlt] at h
    cases h
    exact .inl ⟨rfl, rfl⟩
  · rw [getElem?_set_ne hij] at h
    exact .inr ⟨Ne.symm hij, h⟩

theorem Reached.set_full (h : Reached K P cs)
    (hchain : ∀ p ∈ chain K P cs v q, cs[p]? ≠ some .empty) :
    Reached K P (cs.set q (.full v)) := by
  intro j w hj p hp hempty
  rw [chain_set] at hp
  obtain ⟨-, hc⟩ | ⟨-, hunused⟩ := getElem?_set_cases hempty
  · cases hc
  obtain ⟨rfl, hc⟩ | ⟨-, hj⟩ := getElem?_set_cases hj
  · cases hc
    exact hchain p hp hunused
  · exact h j w hj p hp hunused

/-- Storing an element with a key no other element has. -/
theorem Distinct.set_full (h : Distinct K P cs) (q : Nat)
    (habsent : ∀ w ∈ values cs, K.eq (P.key v) (P.key w) = false) :
    Distinct K P (cs.set q (.full v)) := by
  intro i j u w hi hj heq
  obtain ⟨rfl, hu⟩ | ⟨-, hu⟩ := getElem?_set_cases hi
  · cases hu
    obtain ⟨rfl, -⟩ | ⟨-, hj⟩ := getElem?_set_cases hj
    · rfl
    · have := habsent w (mem_values.mpr (mem_of_getElem? hj))
      rw [heq] at this
      cases this
  · obtain ⟨rfl, hw⟩ | ⟨-, hj⟩ := getElem?_set_cases hj
    · cases hw
      have := habsent u (mem_values.mpr (mem_of_getElem? hu))
      rw [K.eq_symm _ _ heq] at this
      cases this
    · exact h i j u w hu hj heq

theorem Chained.set_full (h : Chained K P cs)
    (hchain : ∀ p ∈ chain K P cs v q, cs[p]? ≠ some .empty)
    (habsent : ∀ w ∈ values cs, K.eq (P.key v) (P.key w) = false) :
    Chained K P (cs.set q (.full v)) where
  capacity := by
    rw [length_set]
    exact h.capacity
  reached := h.reached.set_full hchain
  distinct := h.distinct.set_full q habsent

/-- Replacing an element by one with the same key. -/
theorem Chained.set_same (h : Chained K P cs) {w : β} (hq : cs[q]? = some (.full v))
    (hkey : P.key w = P.key v) : Chained K P (cs.set q (.full w)) where
  capacity := by
    rw [length_set]
    exact h.capacity
  reached := by
    intro j u hj p hp hempty
    rw [chain_set] at hp
    obtain ⟨-, hc⟩ | ⟨-, hunused⟩ := getElem?_set_cases hempty
    · cases hc
    obtain ⟨rfl, hc⟩ | ⟨-, hj⟩ := getElem?_set_cases hj
    · cases hc
      rw [chain, hkey] at hp
      exact h.reached j v hq p hp hunused
    · exact h.reached j u hj p hp hunused
  distinct := by
    intro i j u x hi hj heq
    obtain ⟨rfl, hu⟩ | ⟨-, hu⟩ := getElem?_set_cases hi
    · cases hu
      obtain ⟨rfl, -⟩ | ⟨-, hj⟩ := getElem?_set_cases hj
      · rfl
      · rw [hkey] at heq
        exact h.distinct i j v x hq hj heq
    · obtain ⟨rfl, hx⟩ | ⟨-, hj⟩ := getElem?_set_cases hj
      · cases hx
        rw [hkey] at heq
        exact h.distinct i j u v hu hq heq
      · exact h.distinct i j u x hu hj heq

/-- Erasing keeps the chains when it leaves a tombstone, or when the slot it
frees lies on no chain. -/
theorem Chained.set_erased (h : Chained K P cs)
    (hsafe : erasedCell cs i = .empty → OffChains K P cs i) :
    Chained K P (cs.set i (erasedCell cs i)) where
  capacity := by
    rw [length_set]
    exact h.capacity
  reached := by
    intro j w hj p hp hempty
    rw [chain_set] at hp
    obtain ⟨rfl, hc⟩ | ⟨hne, hw⟩ := getElem?_set_cases hj
    · have := value?_erasedCell cs j
      rw [← hc] at this
      cases this
    obtain ⟨rfl, hc⟩ | ⟨-, hunused⟩ := getElem?_set_cases hempty
    · exact hsafe hc.symm j w hne hw hp
    · exact h.reached j w hw p hp hunused
  distinct := by
    intro a b u w ha hb heq
    obtain ⟨rfl, hc⟩ | ⟨-, hu⟩ := getElem?_set_cases ha
    · have := value?_erasedCell cs a
      rw [← hc] at this
      cases this
    obtain ⟨rfl, hc⟩ | ⟨-, hw⟩ := getElem?_set_cases hb
    · have := value?_erasedCell cs b
      rw [← hc] at this
      cases this
    exact h.distinct a b u w hu hw heq

theorem reached_replicate (n : Nat) : Reached K P (List.replicate n (empty : Cell β)) := by
  intro j v hj
  have := mem_of_getElem? hj
  simp at this

theorem distinct_replicate (n : Nat) : Distinct K P (List.replicate n (empty : Cell β)) := by
  intro i j v w hi
  have := mem_of_getElem? hi
  simp at this

/-- Every element of a table whose chains are intact is found where it is. -/
theorem scanFor_stored (hcap : PowerOfTwo cs.length) (hreach : Reached K P cs)
    (hdist : Distinct K P cs) (hj : cs[j]? = some (.full v)) :
    scanFor K P cs (P.key v) = some (.present j) := by
  have hlt : j < cs.length := (List.getElem?_eq_some_iff.mp hj).1
  obtain ⟨post, hpath⟩ := path_eq_chain_append hcap hlt v
  have hpass : ∀ p ∈ chain K P cs v j, Passes K P cs (P.key v) p := by
    intro p hp
    have hmem : p ∈ path cs.length (K.hash (P.key v)) := by
      rw [hpath]
      exact mem_append_left _ hp
    have hne : p ≠ j := by simpa using mem_takeWhile_imp hp
    obtain ⟨c, hget⟩ : ∃ c, cs[p]? = some c :=
      ⟨_, getElem?_eq_getElem (hcap.mem_path_iff.mp hmem)⟩
    cases c with
    | empty => exact absurd hget (hreach j v hj p hp)
    | deleted => exact .inl hget
    | full w =>
      refine .inr ⟨w, hget, Bool.eq_false_iff.mpr fun heq => hne ?_⟩
      exact (hdist j p v w hj hget heq).symm
  obtain ⟨fd, hscan⟩ := scan_append_of_passes hpass (j :: post) none
  rw [scanFor, hpath, hscan]
  simp [scan, hj, K.eq_refl]

/-! ### Unused slots -/

def Cell.isUnused : Cell β → Bool
  | .empty => true
  | _ => false

/-- The number of control bytes that are `kEmpty`. -/
def unused (cs : List (Cell β)) : Nat := cs.countP isUnused

theorem unused_pos_iff : 0 < unused cs ↔ ∃ e : Nat, cs[e]? = some .empty := by
  rw [unused, countP_pos_iff]
  constructor
  · rintro ⟨c, hc, hu⟩
    cases c with
    | empty =>
      obtain ⟨e, he⟩ := mem_iff_getElem?.mp hc
      exact ⟨e, he⟩
    | deleted | full v => cases hu
  · rintro ⟨e, he⟩
    exact ⟨.empty, mem_of_getElem? he, rfl⟩

theorem unused_set {c d : Cell β} (h : cs[i]? = some c) :
    unused (cs.set i d) + (if c.isUnused then 1 else 0) =
      unused cs + (if d.isUnused then 1 else 0) := by
  obtain ⟨hlt, hget⟩ := List.getElem?_eq_some_iff.mp h
  have hcs : cs = cs.take i ++ c :: cs.drop (i + 1) := by
    rw [← hget, ← drop_eq_getElem_cons hlt, take_append_drop]
  have hset : cs.set i d = cs.take i ++ d :: cs.drop (i + 1) := by
    rw [set_eq_take_append_cons_drop, if_pos hlt]
  have hcount : unused cs = (cs.take i).countP isUnused +
      ((cs.drop (i + 1)).countP isUnused + if c.isUnused then 1 else 0) := by
    conv_lhs => rw [unused, hcs]
    rw [countP_append, countP_cons]
  rw [unused, hset, countP_append, countP_cons]
  omega

/-- While a slot is unused every probe stops. -/
theorem scanFor_isSome (hcap : PowerOfTwo cs.length) (h : 0 < unused cs) (k : κ) :
    ∃ r, scanFor K P cs k = some r := by
  obtain ⟨e, he⟩ := unused_pos_iff.mp h
  have hlt : e < cs.length := (List.getElem?_eq_some_iff.mp he).1
  exact ne_none_iff_exists'.mp (scan_ne_none (fun p hp => hcap.mem_path_iff.mp hp)
    (hcap.mem_path_iff.mpr hlt) he none)

/-- No slot is a tombstone. -/
def NoTombstones (cs : List (Cell β)) : Prop := .deleted ∉ cs

theorem noTombstones_replicate (n : Nat) :
    NoTombstones (List.replicate n (empty : Cell β)) := by
  simp [NoTombstones]

theorem NoTombstones.set_full (h : NoTombstones cs) (q : Nat) (v : β) :
    NoTombstones (cs.set q (.full v)) := by
  intro hmem
  rcases mem_or_eq_of_mem_set hmem with hmem | hEq
  · exact h hmem
  · cases hEq

/-- Without tombstones every slot is unused or holds an element. -/
theorem NoTombstones.unused_add (h : NoTombstones cs) :
    unused cs + (values cs).length = cs.length := by
  induction cs with
  | nil => rfl
  | cons c cs ih =>
    have ih := ih (fun hmem => h (mem_cons_of_mem _ hmem))
    cases c with
    | empty => simp [unused, values_cons, countP_cons, isUnused] at ih ⊢; omega
    | deleted => exact absurd (mem_cons_self ..) h
    | full v => simp [unused, values_cons, isUnused] at ih ⊢; omega

end CxxKit.RawHashSet
