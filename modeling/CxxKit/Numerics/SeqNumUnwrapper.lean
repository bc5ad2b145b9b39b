import Mathlib.Data.Int.ModEq
import Mathlib.Data.List.Chain
import Mathlib.Tactic.Linarith
import Mathlib.Tactic.Ring

/-!
# Unwrapping sequence numbers

`SeqNumUnwrapper<T, M>` (`numerics/sequence_number_unwrapper.hpp`) maps sequence numbers that wrap
at `M` to `int64_t` values that do not; the wrapping arithmetic it rests on is that of
`numerics/sequence_number_util.hpp`. The unsigned type `T` is `BitVec w`; `M = 0` stands for the
full range of the type, as in the source, and `modulus M` is the number that wrapping happens at.

* `unwrapperDelta_spec`: between sequence numbers below the modulus, the signed delta leads from
  one to the other modulo the modulus, and is at most half of it.
* `unwrapAll_residues`: a sequence of integers whose steps are below half the modulus is recovered
  from its residues.
* `unwrapAll_tracks`: whatever sequence numbers arrive, each unwrapped value is congruent to its
  input and within half the modulus of the one before.

An addition that leaves `int64_t` is undefined in C++; `unwrap` is `none` there.
-/

namespace CxxKit.SeqNum

open BitVec List Nat Option

variable {w : Nat}

/-! ### The wrapping arithmetic -/

/-- `forward_diff<T, M>(a, b)`: how far `b` is ahead of `a`. The result is converted back to `T`,
so that the promotion of narrow operands makes no difference here. -/
def forwardDiff (M a b : BitVec w) : BitVec w :=
  if M = 0 then b - a
  else if a ≤ b then b - a else M - (a - b)

/-- `reverse_diff<T, M>(a, b)`. -/
def reverseDiff (M a b : BitVec w) : BitVec w :=
  if M = 0 then a - b
  else if b ≤ a then a - b else M - (b - a)

/-- `min_diff<T, M>(a, b)`, with the comparison of `std::min`. -/
def minDiff (M a b : BitVec w) : BitVec w :=
  if reverseDiff M a b < forwardDiff M a b then reverseDiff M a b else forwardDiff M a b

/-- The value of the expression `a - b` before any conversion: operands narrower than `int` are
promoted, and their difference can be negative. -/
def difference (a b : BitVec w) : Int :=
  if w < 32 then (a.toNat : Int) - b.toNat else (a - b).toNat

/-- `max_dist` of `ahead_or_at`: `M / 2`, or `numeric_limits<T>::max() / 2 + T(1)`. -/
def maxDist (M : BitVec w) : BitVec w :=
  if M = 0 then BitVec.ofNat w ((2 ^ w - 1) / 2 + 1) else BitVec.ofNat w (M.toNat / 2)

/-- `ahead_or_at<T, M>(a, b)`. -/
def aheadOrAt (M a b : BitVec w) : Bool :=
  if M = 0 then
    if difference a b = (maxDist M).toNat then b < a
    else forwardDiff M b a < maxDist M
  else
    if M.toNat &&& 1 = 0 ∧ minDiff M a b = maxDist M then b < a
    else forwardDiff M b a ≤ maxDist M

/-- `detail::unwrapper_delta<T, M>(last_value, new_value)`. -/
def unwrapperDelta (M lastValue newValue : BitVec w) : Int :=
  let backwardAdjustment : Int := if M = 0 then (2 ^ w - 1) + 1 else M.toNat
  let result : Int := (forwardDiff M lastValue newValue).toNat
  if aheadOrAt M newValue lastValue = false then result - backwardAdjustment else result

/-! ### The unwrapper -/

/-- The fields of `SeqNumUnwrapper`. -/
structure Unwrapper (w : Nat) where
  mLastUnwrapped : Int := 0
  mLastValue : Option (BitVec w) := none

/-- The values of `int64_t`. -/
def FitsInt64 (x : Int) : Prop := -2 ^ 63 ≤ x ∧ x < 2 ^ 63

instance (x : Int) : Decidable (FitsInt64 x) := inferInstanceAs (Decidable (_ ∧ _))

/-- `SeqNumUnwrapper::unwrap`: the returned value and the state after it. -/
def unwrap (M : BitVec w) (u : Unwrapper w) (value : BitVec w) : Option (Int × Unwrapper w) :=
  match u.mLastValue with
  | none => some (value.toNat, ⟨value.toNat, some value⟩)
  | some last =>
    let unwrapped := u.mLastUnwrapped + unwrapperDelta M last value
    if FitsInt64 unwrapped then some (unwrapped, ⟨unwrapped, some value⟩) else none

/-- The values returned for a stream of inputs. -/
def unwrapAll (M : BitVec w) (u : Unwrapper w) : List (BitVec w) → Option (List Int)
  | [] => some []
  | value :: values => do
    let (unwrapped, u') ← unwrap M u value
    let rest ← unwrapAll M u' values
    return unwrapped :: rest

section

variable (M : BitVec w)

/-! ### The delta -/

/-- The number at which sequence numbers wrap. -/
def modulus (M : BitVec w) : Nat := if M = 0 then 2 ^ w else M.toNat

theorem modulus_le : modulus M ≤ 2 ^ w := by
  unfold modulus
  split
  · exact le_rfl
  · exact M.isLt.le

theorem modulus_pos : 0 < modulus M := by
  unfold modulus
  split
  · exact Nat.two_pow_pos w
  case isFalse hM =>
    rcases Nat.eq_zero_or_pos M.toNat with hzero | hpos
    · exact absurd (eq_of_toNat_eq (by simpa using hzero)) hM
    · exact hpos

theorem modulus_ne_zero : (modulus M : Int) ≠ 0 :=
  Int.ofNat_ne_zero.mpr (modulus_pos M).ne'

end

/-- The wrapped difference of the type itself. -/
theorem toNat_sub_eq (a b : BitVec w) : (b - a).toNat = if a.toNat ≤ b.toNat then b.toNat - a.toNat
      else 2 ^ w - (a.toNat - b.toNat) := by
  split
  case isTrue hle => exact toNat_sub_of_le hle
  case isFalse hlt =>
    rw [toNat_sub, mod_eq_of_lt (by omega)]
    omega

variable {M a last value new b : BitVec w} {values : List (BitVec w)} {unwrapped : Int}

/-- Below the modulus, the forward difference is the distance going up, through the wrap when `b`
is the smaller one. -/
theorem toNat_forwardDiff (ha : a.toNat < modulus M) (b : BitVec w) :
    (forwardDiff M a b).toNat = if a.toNat ≤ b.toNat then b.toNat - a.toNat
      else modulus M - (a.toNat - b.toNat) := by
  unfold forwardDiff modulus
  by_cases hM : M = 0
  · rw [if_pos hM, if_pos hM]
    exact toNat_sub_eq a b
  · rw [if_neg hM, if_neg hM]
    rw [modulus, if_neg hM] at ha
    by_cases hle : a.toNat ≤ b.toNat
    · rw [if_pos (le_def.mpr hle), if_pos hle, toNat_sub_of_le hle]
    · have hsub : (a - b).toNat = a.toNat - b.toNat := toNat_sub_of_le (by
        rw [le_def]; omega)
      rw [if_neg fun h => hle (le_def.mp h), if_neg hle,
        toNat_sub_of_le (by rw [le_def]; omega), hsub]

/-- The reverse difference is the forward difference the other way. -/
theorem reverseDiff_eq (M a b : BitVec w) : reverseDiff M a b = forwardDiff M b a := rfl

theorem toNat_maxDist_of_ne (hM : M ≠ 0) : (maxDist M).toNat = M.toNat / 2 := by
  rw [maxDist, if_neg hM, toNat_ofNat, mod_eq_of_lt (by omega)]

theorem two_mul_maxDist_zero (hw : 0 < w) : 2 * (maxDist (0 : BitVec w)).toNat = 2 ^ w := by
  obtain ⟨n, rfl⟩ := exists_eq_succ_of_ne_zero hw.ne'
  have hpos := Nat.two_pow_pos n
  rw [maxDist, if_pos rfl, toNat_ofNat, mod_eq_of_lt (by omega)]
  omega

theorem toNat_minDiff (M a b : BitVec w) : (minDiff M a b).toNat =
    min (forwardDiff M a b).toNat (forwardDiff M b a).toNat := by
  rw [minDiff, reverseDiff_eq]
  split
  case isTrue hlt =>
    rw [lt_def] at hlt
    omega
  case isFalse hge =>
    rw [lt_def] at hge
    omega

/-- The difference of the promoted operands is half the range when the way up is, and, for types
narrower than `int`, `a` is the larger one. -/
theorem difference_eq_maxDist_iff (hw : 0 < w) (a b : BitVec w) :
    difference a b = (maxDist (0 : BitVec w)).toNat ↔
      2 * (forwardDiff 0 b a).toNat = modulus (0 : BitVec w) ∧ (b.toNat < a.toNat ∨ ¬ w < 32) := by
  have hmod : modulus 0 = 2 ^ w := if_pos rfl
  have hup := toNat_forwardDiff (M := 0) (by exact b.isLt) a
  have hmax := two_mul_maxDist_zero hw
  unfold difference
  rw [hmod] at hup ⊢
  by_cases hnarrow : w < 32
  · split at hup <;> omega
  · rw [toNat_sub_eq b]
    omega

theorem aheadOrAt_zero_iff (hw : 0 < w) (a b : BitVec w) :
    aheadOrAt 0 a b = true ↔ 2 * (forwardDiff 0 b a).toNat < modulus (0 : BitVec w) ∨
      (2 * (forwardDiff 0 b a).toNat = modulus (0 : BitVec w) ∧ b.toNat < a.toNat) := by
  have hmod : modulus 0 = 2 ^ w := if_pos rfl
  have hmax := two_mul_maxDist_zero hw
  have hdiff := difference_eq_maxDist_iff hw a b
  rw [aheadOrAt, if_pos rfl]
  by_cases heq : difference a b = (maxDist (0 : BitVec w)).toNat
  · rw [if_pos heq, decide_eq_true_iff, lt_def]
    omega
  · rw [if_neg heq, decide_eq_true_iff, lt_def]
    omega

theorem aheadOrAt_iff_of_ne (hM : M ≠ 0) (ha : a.toNat < modulus M) (hb : b.toNat < modulus M) :
    aheadOrAt M a b = true ↔ 2 * (forwardDiff M b a).toNat < modulus M ∨
      (2 * (forwardDiff M b a).toNat = modulus M ∧ b.toNat < a.toNat) := by
  have hup := toNat_forwardDiff hb a
  have hdown := toNat_forwardDiff ha b
  have hmod : modulus M = M.toNat := if_neg hM
  have hmax := toNat_maxDist_of_ne hM
  have hmin : minDiff M a b = maxDist M ↔ (minDiff M a b).toNat = M.toNat / 2 := by
    rw [← hmax, toNat_inj]
  rw [aheadOrAt, if_neg hM]
  split
  case isTrue hhalf =>
    rw [and_one_is_mod, hmin, toNat_minDiff] at hhalf
    rw [decide_eq_true_iff, lt_def]
    split at hup <;> split at hdown <;> omega
  case isFalse hother =>
    rw [and_one_is_mod, hmin, toNat_minDiff] at hother
    rw [decide_eq_true_iff, le_def]
    split at hup <;> split at hdown <;> omega

/-- **The order of sequence numbers**: `a` is ahead of `b` when the way up from `b` to `a` is
shorter than half the modulus; at exactly half, the larger value is ahead. -/
theorem aheadOrAt_iff (hw : 0 < w) (ha : a.toNat < modulus M) (hb : b.toNat < modulus M) :
    aheadOrAt M a b = true ↔ 2 * (forwardDiff M b a).toNat < modulus M ∨
      (2 * (forwardDiff M b a).toNat = modulus M ∧ b.toNat < a.toNat) := by
  by_cases hM : M = 0
  · subst hM
    exact aheadOrAt_zero_iff hw a b
  · exact aheadOrAt_iff_of_ne hM ha hb

/-- **The delta**: it leads from the last sequence number to the new one modulo the modulus, by at
most half of it. -/
theorem unwrapperDelta_spec (hw : 0 < w) (hlast : last.toNat < modulus M)
    (hnew : new.toNat < modulus M) :
    last.toNat + unwrapperDelta M last new ≡ new.toNat [ZMOD modulus M] ∧
      2 * |unwrapperDelta M last new| ≤ modulus M := by
  have hup := toNat_forwardDiff hlast new
  have hahead := aheadOrAt_iff hw hnew hlast
  have hback : (if M = 0 then 2 ^ w - 1 + 1 else (M.toNat : Int)) = modulus M := by
    unfold modulus
    split
    · push_cast
      ring
    · rfl
  -- the way up is the difference of the values, plus one turn when it passes the wrap
  obtain ⟨turns, hturns⟩ : ∃ turns : Int,
      ((forwardDiff M last new).toNat) = new.toNat - last.toNat + modulus M * turns := by
    by_cases hle : last.toNat ≤ new.toNat
    · exact ⟨0, by rw [if_pos hle] at hup; omega⟩
    · exact ⟨1, by rw [if_neg hle] at hup; omega⟩
  rw [unwrapperDelta]
  simp only [hback]
  cases ha : aheadOrAt M new last with
  | true =>
    rw [if_neg (by simp)]
    have hshort := hahead.mp ha
    refine ⟨Int.modEq_iff_dvd.mpr ⟨-turns, by rw [hturns]; ring⟩, ?_⟩
    rw [abs_of_nonneg (by omega)]
    omega
  | false =>
    rw [if_pos rfl]
    have hlong := mt hahead.mpr (by simp [ha])
    refine ⟨Int.modEq_iff_dvd.mpr ⟨1 - turns, by rw [hturns]; ring⟩, ?_⟩
    have hlt : (forwardDiff M last new).toNat < modulus M := by
      split at hup <;> omega
    rw [abs_of_nonpos (by omega)]
    omega

/-! ### Streams -/

/-- The state after a value: the last value is a sequence number below the modulus, and the last
unwrapped value is one of the integers it stands for. -/
structure Anchored (M : BitVec w) (unwrapped : Int) (last : BitVec w) : Prop where
  below : last.toNat < modulus M
  congruent : unwrapped ≡ last.toNat [ZMOD modulus M]

/-- One more value, from an anchored state. -/
theorem anchored_unwrapped (hw : 0 < w) (hanchor : Anchored M unwrapped last)
    (hnew : new.toNat < modulus M) : Anchored M (unwrapped + unwrapperDelta M last new) new := by
  refine ⟨hnew, ?_⟩
  have hstep := hanchor.congruent.add_right (unwrapperDelta M last new)
  exact hstep.trans (unwrapperDelta_spec hw hanchor.below hnew).1

theorem unwrap_some (M : BitVec w) (unwrapped : Int) (last value : BitVec w) :
    unwrap M ⟨unwrapped, some last⟩ value =
      if FitsInt64 (unwrapped + unwrapperDelta M last value) then
        some (unwrapped + unwrapperDelta M last value,
          ⟨unwrapped + unwrapperDelta M last value, some value⟩)
      else none := rfl

/-- A stream whose first value is unwrapped goes on from the state after it. -/
theorem unwrapAll_cons {u u' : Unwrapper w} {y : Int} (hunwrap : unwrap M u value = some (y, u'))
    (values : List (BitVec w)) :
    unwrapAll M u (value :: values) = (unwrapAll M u' values).map (y :: ·) := by
  rw [unwrapAll, hunwrap]
  cases hrest : unwrapAll M u' values <;> simp [hrest]

theorem unwrapAll_cons_of_fits (hfits : FitsInt64 (unwrapped + unwrapperDelta M last value))
    (values : List (BitVec w)) : unwrapAll M ⟨unwrapped, some last⟩ (value :: values) =
      (unwrapAll M ⟨unwrapped + unwrapperDelta M last value, some value⟩ values).map
        ((unwrapped + unwrapperDelta M last value) :: ·) :=
  unwrapAll_cons (by rw [unwrap_some, if_pos hfits]) values

/-- The first value of a fresh unwrapper is returned as it is. -/
theorem unwrapAll_fresh (M value : BitVec w) (values : List (BitVec w)) :
    unwrapAll M {} (value :: values) =
      (unwrapAll M ⟨value.toNat, some value⟩ values).map ((value.toNat : Int) :: ·) :=
  unwrapAll_cons rfl values

/-- The integer `y` is one of those the sequence number stands for. -/
def StandsFor (M value : BitVec w) (y : Int) : Prop := y ≡ value.toNat [ZMOD modulus M]

/-- A step of at most half the modulus. -/
def WithinHalf (M : BitVec w) (y y' : Int) : Prop := 2 * |y' - y| ≤ modulus M

/-- A step of less than half the modulus. -/
def BelowHalf (M : BitVec w) (y y' : Int) : Prop := 2 * |y' - y| < modulus M

instance (M : BitVec w) : DecidableRel (WithinHalf M) :=
  fun _ _ => inferInstanceAs (Decidable (_ ≤ _))

instance (M : BitVec w) : DecidableRel (BelowHalf M) :=
  fun _ _ => inferInstanceAs (Decidable (_ < _))

/-- What a stream of unwrapped values looks like beside its inputs. -/
def Tracks (M : BitVec w) (values : List (BitVec w)) (unwrapped : List Int) : Prop :=
  List.Forall₂ (StandsFor M) values unwrapped ∧ List.IsChain (WithinHalf M) unwrapped

/-- The run lemma: from an anchored state every value that arrives keeps to its input and to the
value before. -/
theorem unwrapAll_tracks_from (hw : 0 < w) :
    ∀ {values : List (BitVec w)} {unwrapped : Int} {last : BitVec w} {ys : List Int},
      Anchored M unwrapped last → (∀ value ∈ values, value.toNat < modulus M) →
      unwrapAll M ⟨unwrapped, some last⟩ values = some ys →
      List.Forall₂ (StandsFor M) values ys ∧ List.IsChain (WithinHalf M) (unwrapped :: ys)
  | [], unwrapped, last, ys, _, _, hrun => by
    cases hrun
    exact ⟨List.Forall₂.nil, List.IsChain.singleton _⟩
  | value :: values, unwrapped, last, ys, hanchor, hbelow, hrun => by
    have hvalue := hbelow value mem_cons_self
    by_cases hfits : FitsInt64 (unwrapped + unwrapperDelta M last value)
    · rw [unwrapAll_cons_of_fits hfits] at hrun
      obtain ⟨rest, hrest, rfl⟩ := map_eq_some_iff.mp hrun
      have hnext := anchored_unwrapped hw hanchor hvalue
      obtain ⟨hcongr, hchain⟩ := unwrapAll_tracks_from hw hnext
        (fun v hv => hbelow v (mem_cons_of_mem _ hv)) hrest
      refine ⟨List.Forall₂.cons hnext.congruent hcongr, List.IsChain.cons_cons ?_ hchain⟩
      have hhalf := (unwrapperDelta_spec hw hanchor.below hvalue).2
      rwa [WithinHalf, add_sub_cancel_left]
    · rw [unwrapAll, unwrap_some, if_neg hfits] at hrun
      cases hrun

theorem unwrapAll_tracks (hw : 0 < w) {ys : List Int}
    (hbelow : ∀ value ∈ values, value.toNat < modulus M) (hrun : unwrapAll M {} values = some ys) :
    Tracks M values ys := by
  cases values with
  | nil =>
    cases hrun
    exact ⟨List.Forall₂.nil, List.IsChain.nil⟩
  | cons value values =>
    rw [unwrapAll_fresh] at hrun
    obtain ⟨rest, hrest, rfl⟩ := map_eq_some_iff.mp hrun
    have hanchor : Anchored M value.toNat value :=
      ⟨hbelow value mem_cons_self, Int.ModEq.refl _⟩
    obtain ⟨hcongr, hchain⟩ := unwrapAll_tracks_from hw hanchor
      (fun v hv => hbelow v (mem_cons_of_mem _ hv)) hrest
    exact ⟨List.Forall₂.cons hanchor.congruent hcongr, hchain⟩

/-- A stream is unwrapped to its end while the moduli it can have gone through stay in
`int64_t`. -/
theorem unwrapAll_isSome_from (hw : 0 < w) :
    ∀ {values : List (BitVec w)} {unwrapped : Int} {last : BitVec w},
      Anchored M unwrapped last → (∀ value ∈ values, value.toNat < modulus M) →
      |unwrapped| + values.length * modulus M < 2 ^ 63 →
      ∃ ys, unwrapAll M ⟨unwrapped, some last⟩ values = some ys
  | [], _, _, _, _, _ => ⟨[], rfl⟩
  | value :: values, unwrapped, last, hanchor, hbelow, hroom => by
    have hvalue := hbelow value mem_cons_self
    have hhalf := (unwrapperDelta_spec hw hanchor.below hvalue).2
    have hsum := abs_add_le unwrapped (unwrapperDelta M last value)
    have hlen : (((value :: values).length) : Int) * modulus M =
        values.length * modulus M + modulus M := by
      push_cast [length_cons]
      ring
    have hrest : 0 ≤ values.length * modulus M := by positivity
    have hbound :
        |unwrapped + unwrapperDelta M last value| + values.length * modulus M < 2 ^ 63 := by
      omega
    have hfits : FitsInt64 (unwrapped + unwrapperDelta M last value) := by
      have hle := abs_le.mp (show |unwrapped + unwrapperDelta M last value| ≤ 2 ^ 63 - 1 by omega)
      exact ⟨by omega, by omega⟩
    obtain ⟨ys, hys⟩ := unwrapAll_isSome_from hw (anchored_unwrapped hw hanchor hvalue)
      (fun v hv => hbelow v (mem_cons_of_mem _ hv)) hbound
    exact ⟨_, by rw [unwrapAll_cons_of_fits hfits, hys]; rfl⟩

theorem unwrapAll_isSome (hw : 0 < w) (hbelow : ∀ value ∈ values, value.toNat < modulus M)
    (hroom : values.length * modulus M ≤ 2 ^ 63) : ∃ ys, unwrapAll M {} values = some ys := by
  cases values with
  | nil => exact ⟨[], rfl⟩
  | cons value values =>
    have hvalue := hbelow value mem_cons_self
    have hlen : (value :: values).length * modulus M = values.length * modulus M + modulus M := by
      rw [length_cons, Nat.succ_mul]
    have hanchor : Anchored M value.toNat value := ⟨hvalue, Int.ModEq.refl _⟩
    have hstart : |(value.toNat : Int)| + values.length * modulus M < 2 ^ 63 := by
      exact_mod_cast show value.toNat + values.length * modulus M < 2 ^ 63 by omega
    obtain ⟨ys, hys⟩ := unwrapAll_isSome_from hw hanchor
      (fun v hv => hbelow v (mem_cons_of_mem _ hv)) hstart
    exact ⟨_, by rw [unwrapAll_fresh, hys]; rfl⟩

/-! ### Recovering integers from their residues -/

/-- The sequence number that stands for `v`. -/
def residue (M : BitVec w) (v : Int) : BitVec w := BitVec.ofNat w (v % modulus M).toNat

theorem toNat_residue (M : BitVec w) (v : Int) : ((residue M v).toNat : Int) = v % modulus M := by
  have hnonneg := Int.emod_nonneg v (modulus_ne_zero M)
  have hlt := Int.emod_lt_of_pos v (Int.natCast_pos.mpr (modulus_pos M))
  have hle := modulus_le M
  rw [residue, toNat_ofNat, mod_eq_of_lt (by omega)]
  omega

theorem anchored_residue (M : BitVec w) (v : Int) : Anchored M v (residue M v) := by
  refine ⟨?_, ?_⟩
  · have hlt := Int.emod_lt_of_pos v (Int.natCast_pos.mpr (modulus_pos M))
    rw [← toNat_residue] at hlt
    exact_mod_cast hlt
  · rw [toNat_residue]
    exact (Int.mod_modEq v _).symm

/-- Two integers that stand for one sequence number and are both within half the modulus of a third,
one of them strictly, are the same. -/
theorem eq_of_congruent_of_close {n : Nat} {v x y : Int} (hcongr : x ≡ y [ZMOD n])
    (hx : 2 * |x - v| ≤ n) (hy : 2 * |y - v| < n) : x = y := by
  have hdvd := hcongr.dvd
  have hsplit := abs_sub_le y v x
  rw [abs_sub_comm v] at hsplit
  have hzero := Int.eq_zero_of_abs_lt_dvd hdvd (by omega)
  omega

theorem unwrapAll_residues_from (hw : 0 < w) :
    ∀ {vs : List Int} {v : Int}, (∀ x ∈ vs, FitsInt64 x) →
      List.IsChain (BelowHalf M) (v :: vs) →
      unwrapAll M ⟨v, some (residue M v)⟩ (vs.map (residue M)) = some vs
  | [], _, _, _ => rfl
  | x :: vs, v, hfits, hchain => by
    obtain ⟨hclose, hrest⟩ := isChain_cons_cons.mp hchain
    have hx := anchored_residue M x
    have hnext := anchored_unwrapped hw (anchored_residue M v) hx.below
    have hhalf := (unwrapperDelta_spec hw (anchored_residue M v).below hx.below).2
    have heq : v + unwrapperDelta M (residue M v) (residue M x) = x := by
      refine eq_of_congruent_of_close (hnext.congruent.trans hx.congruent.symm) ?_ hclose
      rwa [add_sub_cancel_left]
    have ih := unwrapAll_residues_from hw (fun y hy => hfits y (mem_cons_of_mem _ hy)) hrest
    rw [map_cons, unwrapAll_cons_of_fits (by rw [heq]; exact hfits x mem_cons_self), heq, ih]
    rfl

theorem unwrapAll_residues (hw : 0 < w) {v : Int} {vs : List Int} (hv : 0 ≤ v)
    (hlt : v < modulus M) (hfits : ∀ x ∈ vs, FitsInt64 x)
    (hchain : List.IsChain (BelowHalf M) (v :: vs)) :
    unwrapAll M {} ((v :: vs).map (residue M)) = some (v :: vs) := by
  have hstart : ((residue M v).toNat) = v := by
    rw [toNat_residue, Int.emod_eq_of_lt hv hlt]
  rw [map_cons, unwrapAll_fresh, hstart, unwrapAll_residues_from hw hfits hchain]
  rfl

/-- **Unwrapping**: integers whose steps are below half the modulus come back from their residues,
and every stream of sequence numbers below the modulus is tracked, to its end when it is short
enough for `int64_t`. -/
theorem unwrap_streams (hw : 0 < w) (M : BitVec w) :
    (∀ (v : Int) (vs : List Int), 0 ≤ v → v < modulus M → (∀ x ∈ vs, FitsInt64 x) →
        List.IsChain (BelowHalf M) (v :: vs) →
        unwrapAll M {} ((v :: vs).map (residue M)) = some (v :: vs)) ∧
      ∀ values : List (BitVec w), (∀ value ∈ values, value.toNat < modulus M) →
        (∀ ys, unwrapAll M {} values = some ys → Tracks M values ys) ∧
        (values.length * modulus M ≤ 2 ^ 63 → ∃ ys, unwrapAll M {} values = some ys) :=
  ⟨fun _ _ hv hlt hfits hchain => unwrapAll_residues hw hv hlt hfits hchain,
    fun _ hbelow => ⟨fun _ hrun => unwrapAll_tracks hw hbelow hrun, unwrapAll_isSome hw hbelow⟩⟩

/-- The full range of `uint8_t`, across the wrap and back. -/
theorem unwrap_streams_byte :
    unwrapAll (0 : BitVec 8) {} [250#8, 2#8, 251#8] = some [250, 258, 251] :=
  (unwrap_streams (zero_lt_succ 7) 0).1 250 [258, 251] (by decide) (by decide)
    (by decide) (by decide)

/-- A modulus does not bound the inputs: with `SeqNumUnwrapper<uint8_t, 10>`, the value `200` after
`0` is unwrapped to `190`, further away than `10 / 2`. -/
theorem unwrap_above_modulus :
    unwrapAll 10#8 {} [0#8, 200#8] = some [0, 190] ∧ ¬ Tracks 10#8 [0#8, 200#8] [0, 190] := by
  refine ⟨by decide, fun h => ?_⟩
  have hclose := (isChain_cons_cons.mp h.2).1
  revert hclose
  decide

end CxxKit.SeqNum
