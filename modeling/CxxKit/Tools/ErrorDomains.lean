import Mathlib.Logic.Function.Basic

/-!
The registry of error domains (`tools/error.cpp`).

`register_domain` hashes the type name and, while the id is taken, up to five modified names.
Whether it failed is read off the number of retries, so the id of the last retry is never used,
and a hash that happens to be `kInvalidId` is registered like any other.
-/

namespace CxxKit.ErrorDomains

/-- The bits of an `int32_t`. -/
abbrev ErrorId := BitVec 32

/-- The largest `int32_t`. -/
def kInvalidId : ErrorId := 0x7FFFFFFF

structure DomainData where
  type : List UInt8
  name : List UInt8
  description : List UInt8

abbrev Registry := ErrorId → Option DomainData

/-- `std::map::insert`, which keeps an entry that is there. -/
def Registry.insert (map : Registry) (id : ErrorId) (data : DomainData) : Registry :=
  if (map id).isSome then map else Function.update map id (some data)

def fnv1aHash (name : List UInt8) : ErrorId :=
  name.foldl (fun hash byte => (hash ^^^ byte.toBitVec.setWidth 32) * 0x01000193) 0x811C9DC5

def modifiedType (type : List UInt8) (retryCount : Nat) : List UInt8 :=
  type ++ '_'.toUInt8 :: (Nat.toDigits 10 retryCount).map Char.toUInt8

def maxRetries : Nat := 5

/-- The loop of `register_domain` with `rounds` retries left: `id` and `retryCount` after it. -/
def retry (map : Registry) (type : List UInt8) : Nat → ErrorId → Nat → ErrorId × Nat
  | 0, id, retryCount => (id, retryCount)
  | rounds + 1, id, retryCount =>
    if (map id).isSome then
      retry map type rounds (fnv1aHash (modifiedType type retryCount)) (retryCount + 1)
    else (id, retryCount)

def registerDomain (map : Registry) (type name description : List UInt8) : ErrorId × Registry :=
  let (id, retryCount) := retry map type maxRetries (fnv1aHash type) 0
  if retryCount ≥ maxRetries then (kInvalidId, map)
  else (id, map.insert id ⟨type, name, description⟩)

/-- The ids a type name can get: its own hash, then those of the retries. -/
def candidate (type : List UInt8) : Nat → ErrorId
  | 0 => fnv1aHash type
  | n + 1 => fnv1aHash (modifiedType type n)

/-- A new valid id with exactly one new entry, or a failure that changes nothing and has found
all candidates taken. -/
def Promise (map : Registry) (type name description : List UInt8) : Prop :=
  let (id, map') := registerDomain map type name description
  (map id = none ∧ id ≠ kInvalidId ∧
      map' = Function.update map id (some ⟨type, name, description⟩)) ∨
    (id = kInvalidId ∧ map' = map ∧ ∀ n ≤ maxRetries, map (candidate type n) ≠ none)

variable {map : Registry} {type name description : List UInt8}

/-- The loop stops at the first free candidate or after the last round. -/
theorem retry_spec (rounds n : Nat) :
    ∃ m, retry map type rounds (candidate type n) n = (candidate type m, m) ∧ m ≤ n + rounds ∧
      (∀ j, n ≤ j → j < m → map (candidate type j) ≠ none) ∧
      (m < n + rounds → map (candidate type m) = none) := by
  induction rounds generalizing n with
  | zero => exact ⟨n, rfl, Nat.le_refl n, fun j hle hlt => by omega, fun hlt => by omega⟩
  | succ rounds ih =>
    rw [retry]
    split
    next htaken =>
      obtain ⟨m, heq, hle, hbefore, hfree⟩ := ih (n + 1)
      refine ⟨m, heq, by omega, fun j hj hlt => ?_, fun hlt => hfree (by omega)⟩
      rcases Nat.eq_or_lt_of_le hj with rfl | hj
      · exact Option.isSome_iff_ne_none.mp htaken
      · exact hbefore j hj hlt
    next hfree =>
      exact ⟨n, rfl, by omega, fun j hle hlt => by omega, fun _ => by simpa using hfree⟩

/-- **Registration keeps its promise** exactly when the first free candidate comes before the last
retry and is a valid id, or no candidate is free. -/
theorem promise_iff : Promise map type name description ↔
    (∃ n < maxRetries, map (candidate type n) = none ∧
      (∀ j < n, map (candidate type j) ≠ none) ∧ candidate type n ≠ kInvalidId) ∨
    ∀ n ≤ maxRetries, map (candidate type n) ≠ none := by
  obtain ⟨m, heq, hle, hbefore, hfree⟩ := @retry_spec map type maxRetries 0
  rw [Nat.zero_add] at hle hfree
  unfold Promise registerDomain
  change retry map type maxRetries (fnv1aHash type) 0 = _ at heq
  rw [heq]
  dsimp only
  rcases Nat.eq_or_lt_of_le hle with rfl | hlt
  · rw [if_pos (Nat.le_refl _)]
    constructor
    · rintro (⟨-, hvalid, -⟩ | ⟨-, -, htaken⟩)
      · exact absurd rfl hvalid
      · exact .inr htaken
    · rintro (⟨n, hlt, hnone, -⟩ | htaken)
      · exact absurd hnone (hbefore n n.zero_le hlt)
      · exact .inr ⟨rfl, rfl, htaken⟩
  · rw [if_neg (Nat.not_le.mpr hlt), Registry.insert, hfree hlt]
    constructor
    · rintro (⟨-, hvalid, -⟩ | ⟨-, -, htaken⟩)
      · exact .inl ⟨m, hlt, hfree hlt, fun j => hbefore j j.zero_le, hvalid⟩
      · exact absurd (hfree hlt) (htaken m hle)
    · rintro (⟨n, hn, hnone, htaken, hvalid⟩ | htaken)
      · obtain rfl : n = m := by
          rcases Nat.lt_trichotomy n m with hnm | heq | hmn
          · exact absurd hnone (hbefore n n.zero_le hnm)
          · exact heq
          · exact absurd (hfree hlt) (htaken m hmn)
        exact .inl ⟨rfl, hvalid, rfl⟩
      · exact absurd (hfree hlt) (htaken m hle)

/-- The candidates before the last one are taken. -/
def almostTaken (type : List UInt8) : Registry := fun id =>
  if id ∈ (List.range maxRetries).map (candidate type) then some ⟨[], [], []⟩ else none

/-- The free id of the last retry is not used; the name `ZvsHvA` is registered under
`kInvalidId`. -/
theorem last_retry_unused :
    ¬ Promise (almostTaken []) [] [] [] ∧
      ¬ Promise (fun _ => none) (['Z', 'v', 's', 'H', 'v', 'A'].map Char.toUInt8) [] [] := by
  constructor
  · rintro (⟨-, hvalid, -⟩ | ⟨-, -, htaken⟩)
    · exact hvalid (by decide)
    · exact htaken 5 (by decide) (by decide)
  · rintro (⟨-, hvalid, -⟩ | ⟨-, -, htaken⟩)
    · exact hvalid (by decide)
    · exact htaken 0 (by decide) rfl

end CxxKit.ErrorDomains
