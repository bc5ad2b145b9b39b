import CxxKit.Numerics.SafeCompare

/-!
# Minimum, maximum and clamp across integer types

`safe_min`, `safe_max` and `safe_clamp` of `safe_minmax.hpp`, for integers of any types.  The
functions compute their result type from the types of the arguments, by comparing the limits of the
types with the functions of `safe_compare.hpp`.  Where a `static_assert` fails the call does not
compile, and the model has no result.  A caller may also name the result type, which has to hold
all values of the type that would have been chosen.

The values of a call do not take part in the choice.  Every call that compiles returns the number it
should, whatever the arguments, because the chosen type holds every number the call can return.
-/

namespace CxxKit.SafeMinmax

open CInteger CInteger.IntType SafeCompare

/-! ### The model -/

/-- A value along with the type that the compiler has deduced for it. -/
structure Typed where
  type : IntType
  val : type.Val

/-- The two members of `MType<T1, T2>`. -/
structure MType where
  minT : IntType
  maxT : IntType

/-- `MType<T1, T2>` for two integral types. Its `static_assert` is on the way to both members. -/
def mType (p : Platform) (T1 T2 : IntType) : Option MType :=
  if safeNe p T1.maxVal T2.maxVal || safeEq p T1.lowestVal T2.lowestVal then
    some
      { minT :=
          if safeLt p T1.lowestVal T2.lowestVal then T1
          else if safeGt p T1.lowestVal T2.lowestVal then T2
          else if safeLe p T1.maxVal T2.maxVal then T1 else T2
        maxT := if safeGe p T1.maxVal T2.maxVal then T1 else T2 }
  else none

/-- `TypeOr<A, B>::type`, where `none` is `DefaultType`. -/
def typeOr (p : Platform) (A : Option IntType) (B : IntType) : Option IntType :=
  let type := A.getD B
  if safeLe p type.lowestVal B.lowestVal && safeGe p type.maxVal B.maxVal then some type else none

/-- `safe_min<R>(a, b)`. -/
def safeMin (p : Platform) (R : Option IntType) {T1 T2 : IntType} (a : T1.Val) (b : T2.Val) :
    Option Typed := do
  let m ← mType p T1 T2
  let R2 ← typeOr p R m.minT
  return ⟨R2, if safeLt p a b then R2.convert a.val else R2.convert b.val⟩

/-- `safe_max<R>(a, b)`. -/
def safeMax (p : Platform) (R : Option IntType) {T1 T2 : IntType} (a : T1.Val) (b : T2.Val) :
    Option Typed := do
  let m ← mType p T1 T2
  let R2 ← typeOr p R m.maxT
  return ⟨R2, if safeGt p a b then R2.convert a.val else R2.convert b.val⟩

/-- `r_min` and `r_max` of `ClampType`. -/
structure ClampRange where
  rMin : Typed
  rMax : Typed

section ClampType

variable (p : Platform) (T L H : IntType)

def clampRange : Option ClampRange := do
  let low ← safeMin p none H.lowestVal T.lowestVal
  let rMin ← safeMax p none L.lowestVal low.val
  let high ← safeMax p none L.maxVal T.maxVal
  let rMax ← safeMin p none H.maxVal high.val
  return { rMin, rMax }

/-- `AcceptableType<A>::value`. -/
def acceptableType (r : ClampRange) (A : IntType) : Bool :=
  let notTooLarge := A.size ≤ L.size || A.size ≤ H.size || A.size ≤ T.size
  let rangeContained := safeLe p A.lowestVal r.rMin.val && safeLe p r.rMax.val A.maxVal
  notTooLarge && rangeContained

/-- `best_signed_type` and `best_unsigned_type`. -/
def bestType (r : ClampRange) (signed : Bool) : IntType :=
  if acceptableType p T L H r (int8 signed) then int8 signed
  else if acceptableType p T L H r (int16 signed) then int16 signed
  else if acceptableType p T L H r (int32 signed) then int32 signed
  else int64 signed

/-- `ClampType<T, L, H>::type` for three integral types. -/
def clampType : Option IntType := do
  let r ← clampRange p T L H
  let bestSigned := bestType p T L H r true
  let bestUnsigned := bestType p T L H r false
  let type :=
    if T.isSigned then
      if acceptableType p T L H r bestSigned then bestSigned else bestUnsigned
    else
      if acceptableType p T L H r bestUnsigned then bestUnsigned else bestSigned
  if acceptableType p T L H r type then some type else none

end ClampType

/-- Why a call gives no value. -/
inductive Refusal where
  | doesNotCompile
  | checkFailed
  deriving DecidableEq

/-- `safe_clamp<R>(x, min, max)`, in a build with or without the `DCHECK`s. -/
def safeClamp (p : Platform) (dchecks : Bool) (R : Option IntType) {T L H : IntType} (x : T.Val)
    (min : L.Val) (max : H.Val) : Except Refusal Typed :=
  match (clampType p T L H).bind (typeOr p R) with
  | none => .error .doesNotCompile
  | some R2 =>
    if dchecks && !safeLe p min max then .error .checkFailed
    else
      .ok ⟨R2, if safeLe p x min then R2.convert min.val
        else if safeGe p x max then R2.convert max.val else R2.convert x.val⟩

/-! ### Two arguments -/

section TwoTypes

variable (p : Platform) (T1 T2 : IntType)

/-- The assertion holds for any two types, as those with the same maximum are the same. The types
chosen hold the minimum and the maximum of any two values. -/
theorem mType_spec : ∃ m, mType p T1 T2 = some m ∧
    (∀ a b, T1.Holds a → T2.Holds b → m.minT.Holds (min a b)) ∧
    ∀ a b, T1.Holds a → T2.Holds b → m.maxT.Holds (max a b) := by
  refine ⟨_, if_pos ?_, ?_, ?_⟩
  · by_cases hmax : T1.max = T2.max
    · obtain rfl := eq_of_max_eq hmax
      simp
    · simp [hmax]
  · intro a b ⟨ha, ha'⟩ ⟨hb, hb'⟩
    simp only [safeLt_iff, safeGt_iff, safeLe_iff, lowestVal_val, maxVal_val, Holds]
    split_ifs <;> omega
  · intro a b ⟨ha, ha'⟩ ⟨hb, hb'⟩
    simp only [safeGe_iff, maxVal_val, Holds]
    split_ifs <;> omega

end TwoTypes

variable {p : Platform} {T1 T2 : IntType} {R : Option IntType} {a : T1.Val} {b : T2.Val} {r : Typed}

theorem typeOr_within {A : Option IntType} {B C : IntType}
    (h : typeOr p A B = some C) : B.Within C := by
  obtain ⟨hrange, hC⟩ := Option.ite_none_right_eq_some.mp h
  obtain rfl := Option.some.inj hC
  simpa [Within] using hrange

theorem typeOr_none (p : Platform) (B : IntType) : typeOr p none B = some B := by
  simp [typeOr]

/-- A call of `safe_min` that compiles returns the smaller number. -/
theorem safeMin_val (h : safeMin p R a b = some r) : r.val.val = min a.val b.val := by
  obtain ⟨m, hm, hmin, -⟩ := mType_spec p T1 T2
  simp only [safeMin, hm, Option.bind_eq_bind, Option.bind_some, Option.bind_eq_some_iff] at h
  obtain ⟨R2, hR, hr⟩ := h
  obtain rfl := Option.some.inj hr
  have hholds := (typeOr_within hR).holds (hmin _ _ a.property b.property)
  simp only [safeLt_iff]
  split
  next hlt =>
    rw [Int.min_eq_left (Int.le_of_lt hlt)] at hholds ⊢
    exact convert_of_holds hholds
  next hlt =>
    rw [Int.min_eq_right (Int.not_lt.mp hlt)] at hholds ⊢
    exact convert_of_holds hholds

theorem safeMax_val (h : safeMax p R a b = some r) : r.val.val = max a.val b.val := by
  obtain ⟨m, hm, -, hmax⟩ := mType_spec p T1 T2
  simp only [safeMax, hm, Option.bind_eq_bind, Option.bind_some, Option.bind_eq_some_iff] at h
  obtain ⟨R2, hR, hr⟩ := h
  obtain rfl := Option.some.inj hr
  have hholds := (typeOr_within hR).holds (hmax _ _ a.property b.property)
  simp only [safeGt_iff]
  split
  next hgt =>
    rw [Int.max_eq_left (Int.le_of_lt hgt)] at hholds ⊢
    exact convert_of_holds hholds
  next hgt =>
    rw [Int.max_eq_right (Int.not_lt.mp hgt)] at hholds ⊢
    exact convert_of_holds hholds

/-- With the default result type every call compiles. -/
theorem safeMin_compiles (p : Platform) (a : T1.Val) (b : T2.Val) :
    ∃ r, safeMin p none a b = some r := by
  obtain ⟨m, hm, -⟩ := mType_spec p T1 T2
  exact ⟨_, by simp only [safeMin, hm, typeOr_none]; rfl⟩

theorem safeMax_compiles (p : Platform) (a : T1.Val) (b : T2.Val) :
    ∃ r, safeMax p none a b = some r := by
  obtain ⟨m, hm, -⟩ := mType_spec p T1 T2
  exact ⟨_, by simp only [safeMax, hm, typeOr_none]; rfl⟩

/-! ### Clamping -/

section Clamping

variable (p) (T L H : IntType)

/-- `r_min` and `r_max` in terms of the limits of the three types. -/
theorem clampRange_spec : ∃ r, clampRange p T L H = some r ∧
    r.rMin.val.val = max L.lowest (min H.lowest T.lowest) ∧
    r.rMax.val.val = min H.max (max L.max T.max) := by
  obtain ⟨low, hlow⟩ := safeMin_compiles p H.lowestVal T.lowestVal
  obtain ⟨rMin, hrMin⟩ := safeMax_compiles p L.lowestVal low.val
  obtain ⟨high, hhigh⟩ := safeMax_compiles p L.maxVal T.maxVal
  obtain ⟨rMax, hrMax⟩ := safeMin_compiles p H.maxVal high.val
  refine ⟨{ rMin, rMax }, ?_, ?_, ?_⟩
  · simp only [clampRange, hlow, hrMin, hhigh, hrMax, Option.bind_eq_bind, Option.bind_some]
    rfl
  · rw [safeMax_val hrMin, safeMin_val hlow]
    rfl
  · rw [safeMin_val hrMax, safeMax_val hhigh]
    rfl

variable {p T L H}

variable {r : ClampRange} {A : IntType} {lo : L.Val} {hi : H.Val} {x : T.Val} {n : ℕ+}

theorem acceptableType_iff : acceptableType p T L H r A = true ↔
      (A.size ≤ L.size ∨ A.size ≤ H.size ∨ A.size ≤ T.size) ∧
        A.lowest ≤ r.rMin.val.val ∧ r.rMax.val.val ≤ A.max := by
  simp [acceptableType, or_assoc]

/-- The type that is chosen covers the range of the results. -/
theorem clampType_spec (h : clampType p T L H = some A) :
    A.lowest ≤ max L.lowest (min H.lowest T.lowest) ∧ min H.max (max L.max T.max) ≤ A.max := by
  obtain ⟨r, hr, hmin, hmax⟩ := clampRange_spec p T L H
  simp only [clampType, hr, Option.bind_eq_bind, Option.bind_some] at h
  obtain ⟨hacc, hA⟩ := Option.ite_none_right_eq_some.mp h
  obtain rfl := Option.some.inj hA
  rw [← hmin, ← hmax]
  exact (acceptableType_iff.mp hacc).2

/-- In a build with the checks the bounds of a call that returns are in order. -/
theorem bounds_of_safeClamp {r : Typed} (h : safeClamp p true R x lo hi = .ok r) :
    lo.val ≤ hi.val := by
  unfold safeClamp at h
  split at h
  · cases h
  · split at h
    next => cases h
    next hle => simpa using hle

/-- A call of `safe_clamp` that returns, with its bounds in order, returns the number in between
them that is nearest to the argument. -/
theorem safeClamp_val {dchecks : Bool} {r : Typed} (hle : lo.val ≤ hi.val)
    (h : safeClamp p dchecks R x lo hi = .ok r) : r.val.val = max lo.val (min x.val hi.val) := by
  unfold safeClamp at h
  split at h
  next => cases h
  next R2 hR2 =>
    obtain ⟨A, hA, hR⟩ := Option.bind_eq_some_iff.mp hR2
    obtain ⟨hmin, hmax⟩ := clampType_spec hA
    have hx := x.property
    have hlo := lo.property
    have hhi := hi.property
    unfold Holds at hx hlo hhi
    have hholds : R2.Holds (max lo.val (min x.val hi.val)) :=
      (typeOr_within hR).holds ⟨by omega, by omega⟩
    split at h
    · cases h
    · obtain rfl := Except.ok.inj h
      simp only [safeLe_iff, safeGe_iff]
      -- each branch converts the number that the right-hand side is there
      split_ifs
      · rw [show max lo.val (min x.val hi.val) = lo.val by omega] at hholds ⊢
        exact convert_of_holds hholds
      · rw [show max lo.val (min x.val hi.val) = hi.val by omega] at hholds ⊢
        exact convert_of_holds hholds
      · rw [show max lo.val (min x.val hi.val) = x.val by omega] at hholds ⊢
        exact convert_of_holds hholds

/-- One of the two types as wide as the widest argument is acceptable: the unsigned one unless the
range goes below zero. -/
theorem widest_acceptable (hr : clampRange p T L H = some r) (hT : T.size ≤ n) (hL : L.size ≤ n)
    (hH : H.size ≤ n) (hn : n ≤ L.size ∨ n ≤ H.size ∨ (n : ℕ) ≤ T.size) :
    acceptableType p T L H r (int true n) = true ∨
      acceptableType p T L H r (int false n) = true := by
  obtain ⟨r', hr', hmin, hmax⟩ := clampRange_spec p T L H
  obtain rfl := Option.some.inj (hr.symm.trans hr')
  simp only [acceptableType_iff, hmin, hmax]
  by_cases hneg : max L.lowest (min H.lowest T.lowest) < 0
  · left
    have hLs := isSigned_of_lowest_neg (T := L) (by omega)
    have hLw := within_signed hLs hL
    unfold Within at hLw
    refine ⟨hn, by omega, ?_⟩
    -- the lower end comes from a signed type besides `L`, which bounds the upper end
    by_cases hHneg : H.lowest < 0
    · have hHw := (within_signed (isSigned_of_lowest_neg hHneg) hH).2
      omega
    · have hTw := (within_signed (isSigned_of_lowest_neg (by omega)) hT).2
      omega
  · right
    have hHmax := max_le_unsigned hH
    refine ⟨hn, ?_, by omega⟩
    exact Int.not_lt.mp hneg

/-- The search over the sizes finds an acceptable type if there is one. -/
theorem bestType_acceptable {s : Bool} (hn : (n : ℕ) ∈ [1, 2, 4, 8])
    (hacc : acceptableType p T L H r (int s n) = true) :
    acceptableType p T L H r (bestType p T L H r s) = true := by
  have hcases : n = 1 ∨ n = 2 ∨ n = 4 ∨ n = 8 := by
    simp only [List.mem_cons, List.not_mem_nil, or_false] at hn
    rcases hn with h | h | h | h
    · exact .inl (PNat.eq h)
    · exact .inr (.inl (PNat.eq h))
    · exact .inr (.inr (.inl (PNat.eq h)))
    · exact .inr (.inr (.inr (PNat.eq h)))
  unfold bestType
  split_ifs with h1 h2 h4
  · exact h1
  · exact h2
  · exact h4
  · rcases hcases with rfl | rfl | rfl | rfl
    · exact absurd hacc h1
    · exact absurd hacc h2
    · exact absurd hacc h4
    · exact hacc

end Clamping

/-- The sizes of the types that the search knows. -/
def StandardSize (T : IntType) : Prop := T.size ∈ [1, 2, 4, 8]

instance (T : IntType) : Decidable (StandardSize T) :=
  inferInstanceAs (Decidable (T.size ∈ [1, 2, 4, 8]))

/-- The widest of three types. -/
theorem exists_widest {T L H : IntType} (hT : StandardSize T) (hL : StandardSize L)
    (hH : StandardSize H) : ∃ n : ℕ+, (n : ℕ) ∈ [1, 2, 4, 8] ∧ T.size ≤ n ∧ L.size ≤ n ∧
      H.size ≤ n ∧ (n ≤ L.size ∨ n ≤ H.size ∨ (n : ℕ) ≤ T.size) := by
  obtain ⟨m, hm⟩ : ∃ m, m = max T.size (max L.size H.size) := ⟨_, rfl⟩
  have hpos := T.size_pos
  refine ⟨⟨m, by omega⟩, ?_, ?_⟩
  · rcases (by omega : m = T.size ∨ m = L.size ∨ m = H.size) with h | h | h
    · exact h ▸ hT
    · exact h ▸ hL
    · exact h ▸ hH
  · simp only [PNat.mk_coe]
    omega

/-- There is a result type for any three arguments of standard sizes. -/
theorem clampType_exists (p : Platform) {T L H : IntType} (hT : StandardSize T)
    (hL : StandardSize L) (hH : StandardSize H) : ∃ A, clampType p T L H = some A := by
  obtain ⟨r, hr, -⟩ := clampRange_spec p T L H
  obtain ⟨n, hn, hTn, hLn, hHn, hmem⟩ := exists_widest hT hL hH
  have hbest : acceptableType p T L H r (bestType p T L H r true) = true ∨
      acceptableType p T L H r (bestType p T L H r false) = true :=
    (widest_acceptable hr hTn hLn hHn hmem).imp (bestType_acceptable hn) (bestType_acceptable hn)
  simp only [clampType, hr, Option.bind_eq_bind, Option.bind_some]
  refine ⟨_, if_pos ?_⟩
  split_ifs with hsigned hS hU
  · exact hS
  · exact hbest.resolve_left hS
  · exact hU
  · exact hbest.resolve_right hU

/-- Every call that compiles and returns, for arguments of any integer types and with any result
type, gives the minimum, the maximum or the clamped number, which the type can therefore represent.
With the default result type `safe_min` and `safe_max` compile for all types, and `safe_clamp`
for all types of 1, 2, 4 or 8 bytes.  A build with the checks stops a call of `safe_clamp`
whose bounds are out of order. -/
theorem safe_minmax_exact (p : Platform) :
    (∀ (R : Option IntType) (T1 T2 : IntType) (a : T1.Val) (b : T2.Val) (r : Typed),
      safeMin p R a b = some r →
        r.type.Holds (min a.val b.val) ∧ r.val.val = min a.val b.val) ∧
    (∀ (R : Option IntType) (T1 T2 : IntType) (a : T1.Val) (b : T2.Val) (r : Typed),
      safeMax p R a b = some r →
        r.type.Holds (max a.val b.val) ∧ r.val.val = max a.val b.val) ∧
    (∀ (dchecks : Bool) (R : Option IntType) (T L H : IntType) (x : T.Val) (lo : L.Val)
      (hi : H.Val) (r : Typed), safeClamp p dchecks R x lo hi = .ok r →
        (dchecks = true → lo.val ≤ hi.val) ∧
        (lo.val ≤ hi.val → r.type.Holds (max lo.val (min x.val hi.val)) ∧
          r.val.val = max lo.val (min x.val hi.val))) ∧
    (∀ (T1 T2 : IntType) (a : T1.Val) (b : T2.Val),
      (∃ r, safeMin p none a b = some r) ∧ ∃ r, safeMax p none a b = some r) ∧
    ∀ (dchecks : Bool) (T L H : IntType) (x : T.Val) (lo : L.Val) (hi : H.Val),
      StandardSize T → StandardSize L → StandardSize H → lo.val ≤ hi.val →
        ∃ r, safeClamp p dchecks none x lo hi = .ok r := by
  refine ⟨?_, ?_, ?_, ?_, ?_⟩
  · intro R T1 T2 a b r h
    have hval := safeMin_val h
    exact ⟨hval ▸ r.val.property, hval⟩
  · intro R T1 T2 a b r h
    have hval := safeMax_val h
    exact ⟨hval ▸ r.val.property, hval⟩
  · intro dchecks R T L H x lo hi r h
    refine ⟨?_, fun hle => ?_⟩
    · rintro rfl
      exact bounds_of_safeClamp h
    · have hval := safeClamp_val hle h
      exact ⟨hval ▸ r.val.property, hval⟩
  · intro T1 T2 a b
    exact ⟨safeMin_compiles p a b, safeMax_compiles p a b⟩
  · intro dchecks T L H x lo hi hT hL hH hle
    obtain ⟨A, hA⟩ := clampType_exists p hT hL hH
    simp only [safeClamp, hA, Option.bind_some, typeOr_none]
    exact ⟨_, if_neg (by simp [hle])⟩

/-- `safe_clamp(-5, 0u, int8_t{100})` is `0`, of type `int8_t`. -/
theorem safe_clamp_mixed :
    ∃ r, safeClamp ⟨4, 8⟩ true none ((int32 true).convert (-5)) ((int32 false).convert 0)
      ((int8 true).convert 100) = .ok r ∧ r.val.val = 0 := by
  obtain ⟨r, hr⟩ := (safe_minmax_exact ⟨4, 8⟩).2.2.2.2 true _ _ _ ((int32 true).convert (-5))
    ((int32 false).convert 0) ((int8 true).convert 100) (by decide)
    (by decide) (by decide) (by decide)
  have hval := ((safe_minmax_exact ⟨4, 8⟩).2.2.1 _ _ _ _ _ _ _ _ r hr).2 (by decide)
  exact ⟨r, hr, hval.2.trans (by decide)⟩

end CxxKit.SafeMinmax
