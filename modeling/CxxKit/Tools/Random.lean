import Mathlib.Logic.Basic

/-!
The pseudo-random generator `Random` (`tools/random.hpp`, `tools/random.cpp`).

A number is drawn by three steps of xorshift on `mState` and a multiplication.  No step takes a
word other than zero to zero, so the state is never zero (`advance_ne_zero`).  The draws in a
range scale the low 32 bits of the output.
-/

namespace CxxKit.Random

open Nat

/-- The three steps of `next_output` on `mState`. -/
def advance (mState : UInt64) : UInt64 :=
  let mState := mState ^^^ mState >>> 12
  let mState := mState ^^^ mState <<< 25
  mState ^^^ mState >>> 27

/-- What `next_output` returns, from the state it leaves. -/
def output (mState : UInt64) : UInt64 := mState * 2685821657736338717

/-- `rand(t)`, with the state it leaves. -/
def rand (t : UInt32) (mState : UInt64) : UInt64 × UInt32 :=
  let mState := advance mState
  let x := (output mState).toUInt32
  let result := x.toUInt64 * (t.toUInt64 + 1)
  (mState, (result >>> 32).toUInt32)

/-- `rand(uint32_t low, uint32_t high)`. -/
def randUnsigned (low high : UInt32) (mState : UInt64) : UInt64 × UInt32 :=
  let r := rand (high - low) mState
  (r.1, r.2 + low)

/-- `rand(int32_t low, int32_t high)`; its `int64_t` values are exact. -/
def randSigned (low high : Int32) (mState : UInt64) : UInt64 × Int32 :=
  let r := rand (.ofNat (high.toInt - low.toInt).toNat) mState
  (r.1, .ofInt (r.2.toNat + low.toInt))

/-! ### The state -/

variable {x : UInt64}

theorem xor_shiftRight_ne_zero {n : UInt64} (hn : 0 < n.toNat % 64) (h : x ≠ 0) :
    x ^^^ x >>> n ≠ 0 := by
  intro hzero
  have heq : x.toNat = x.toNat / 2 ^ (n.toNat % 64) := by
    rw [← shiftRight_eq_div_pow, ← UInt64.toNat_shiftRight, ← UInt64.xor_eq_zero_iff.mp hzero]
  have hpos : 0 < x.toNat := Nat.pos_of_ne_zero fun h' => h (UInt64.toNat_inj.mp h')
  have hlt := Nat.div_lt_self hpos (Nat.one_lt_two_pow (Nat.ne_of_gt hn))
  omega

/-- An odd factor takes only zero to zero. -/
theorem eq_zero_of_mul {a : Nat} (ha : Nat.Coprime 18446744073709551616 a)
    (h : x.toNat * a % 18446744073709551616 = 0) : x = 0 := by
  have hdvd := ha.dvd_of_dvd_mul_right (dvd_of_mod_eq_zero h)
  exact UInt64.toNat_inj.mp (eq_zero_of_dvd_of_lt hdvd x.toNat_lt)

theorem xor_shiftLeft_ne_zero (h : x ≠ 0) : x ^^^ x <<< 25 ≠ 0 := by
  intro hzero
  have heq : x.toNat * 2 ^ 25 % 2 ^ 64 = x.toNat % 2 ^ 64 := by
    rw [mod_eq_of_lt x.toNat_lt]
    conv => rhs; rw [UInt64.xor_eq_zero_iff.mp hzero, UInt64.toNat_shiftLeft, shiftLeft_eq]
    rfl
  have hmul := sub_mod_eq_zero_of_mod_eq heq
  rw [← Nat.mul_sub_one] at hmul
  exact h (eq_zero_of_mul (by decide) hmul)

theorem advance_ne_zero (h : x ≠ 0) : advance x ≠ 0 :=
  xor_shiftRight_ne_zero (by decide)
    (xor_shiftLeft_ne_zero (xor_shiftRight_ne_zero (by decide) h))

theorem output_ne_zero (h : x ≠ 0) : output x ≠ 0 := by
  intro hzero
  refine h (eq_zero_of_mul (a := 2685821657736338717) (by decide) ?_)
  exact (UInt64.toNat_mul ..).symm.trans (congrArg UInt64.toNat hzero)

/-! ### The ranges -/

variable {t : UInt32}

theorem toNat_rand : (rand t x).2.toNat =
    (output (advance x)).toNat % 4294967296 * (t.toNat + 1) / 4294967296 := by
  have ht := t.toNat_lt
  have hmul : (output (advance x)).toNat % 4294967296 * (t.toNat + 1) ≤ 4294967295 * 4294967296 :=
    Nat.mul_le_mul (by omega) (by omega)
  simp only [rand, UInt64.toNat_toUInt32, UInt64.toNat_shiftRight, UInt64.toNat_mul,
    UInt32.toNat_toUInt64, UInt64.toNat_add, shiftRight_eq_div_pow, UInt64.reduceToNat,
    reduceMod, reducePow]
  rw [mod_eq_of_lt (show t.toNat + 1 < 18446744073709551616 by omega)]
  generalize _ % 4294967296 * t.toNat + 1 = n at hmul ⊢
  omega

theorem rand_le : (rand t x).2.toNat ≤ t.toNat := by
  rw [toNat_rand]
  refine le_of_lt_succ (Nat.div_lt_of_lt_mul ?_)
  exact Nat.mul_lt_mul_of_pos_right (mod_lt _ (by decide)) (succ_pos _)

/-- The outputs whose low half is all zeros or all ones are drawn from these seeds. -/
theorem rand_bounds : (rand t 1375937516058605863).2 = 0 ∧ (rand t 12165231662994148584).2 = t := by
  constructor
  · refine UInt32.toNat_inj.mp ?_
    rw [toNat_rand, show (output (advance 1375937516058605863)).toNat % 4294967296 = 0 by decide,
      Nat.zero_mul]
    rfl
  · have ht := t.toNat_lt
    refine UInt32.toNat_inj.mp ?_
    rw [toNat_rand,
      show (output (advance 12165231662994148584)).toNat % 4294967296 = 4294967295 by decide]
    omega

/-! ### Runs -/

/-- The calls that draw integers.  Those that draw other types take their numbers from
`next_output`, too. -/
inductive Call where
  | nextOutput
  | rand (t : UInt32)
  | randUnsigned (low high : UInt32)
  | randSigned (low high : Int32)
  deriving DecidableEq

namespace Call

def low : Call → Int
  | .nextOutput => 1
  | .rand _ => 0
  | .randUnsigned low _ => low.toNat
  | .randSigned low _ => low.toInt

def high : Call → Int
  | .nextOutput => 18446744073709551615
  | .rand t => t.toNat
  | .randUnsigned _ high => high.toNat
  | .randSigned _ high => high.toInt

/-- The state the call leaves, and the number it returns. -/
def serve (mState : UInt64) : Call → UInt64 × Int
  | .nextOutput => (advance mState, (output (advance mState)).toNat)
  | .rand t => ((Random.rand t mState).1, (Random.rand t mState).2.toNat)
  | .randUnsigned low high =>
    ((Random.randUnsigned low high mState).1, (Random.randUnsigned low high mState).2.toNat)
  | .randSigned low high =>
    ((Random.randSigned low high mState).1, (Random.randSigned low high mState).2.toInt)

theorem serve_fst (c : Call) : (c.serve x).1 = advance x := by
  cases c <;> rfl

variable {c : Call}

/-- A draw in a range is the lower bound and a draw up to the difference of the bounds. -/
theorem serve_eq (hc : c ≠ .nextOutput) (h : c.low ≤ c.high) :
    ∃ t : UInt32, (t.toNat : Int) = c.high - c.low ∧
      ∀ x, (c.serve x).2 = c.low + (Random.rand t x).2.toNat := by
  cases c with
  | nextOutput => exact absurd rfl hc
  | rand t => exact ⟨t, (Int.sub_zero _).symm, fun x => (Int.zero_add _).symm⟩
  | randUnsigned low high =>
    simp only [Call.low, Call.high, serve, Random.randUnsigned] at h ⊢
    have hdiff := UInt32.toNat_sub_of_le high low (Int.ofNat_le.mp h)
    have hhigh := high.toNat_lt
    refine ⟨high - low, by omega, fun x => ?_⟩
    have hle := rand_le (t := high - low) (x := x)
    rw [UInt32.toNat_add]
    omega
  | randSigned low high =>
    simp only [Call.low, Call.high, serve, Random.randSigned] at h ⊢
    have hhigh := high.toInt_lt
    have hlow := low.le_toInt
    have hdiff := UInt32.toNat_ofNat_of_lt' (n := (high.toInt - low.toInt).toNat)
      (by show _ < 4294967296; omega)
    refine ⟨_, by rw [hdiff]; omega, fun x => ?_⟩
    have hle := rand_le (t := .ofNat (high.toInt - low.toInt).toNat) (x := x)
    rw [Int32.toInt_ofInt_of_le (by omega) (by omega), Int.add_comm]

theorem serve_mem (hx : x ≠ 0) (h : c.low ≤ c.high) :
    c.low ≤ (c.serve x).2 ∧ (c.serve x).2 ≤ c.high := by
  by_cases hc : c = .nextOutput
  · subst hc
    have hlt := (output (advance x)).toNat_lt
    have hpos : (output (advance x)).toNat ≠ 0 := fun hzero =>
      output_ne_zero (advance_ne_zero hx) (UInt64.toNat_inj.mp hzero)
    simp only [low, high, serve]
    omega
  · obtain ⟨t, ht, hserve⟩ := serve_eq hc h
    have hle := rand_le (t := t) (x := x)
    rw [hserve]
    omega

theorem serve_attains (h : c.low ≤ c.high) : (∃ seed, seed ≠ 0 ∧ (c.serve seed).2 = c.low) ∧
      ∃ seed, seed ≠ 0 ∧ (c.serve seed).2 = c.high := by
  by_cases hc : c = .nextOutput
  · subst hc
    exact ⟨⟨11013388057781577488, by decide⟩, ⟨12165231662994148584, by decide⟩⟩
  · obtain ⟨t, ht, hserve⟩ := serve_eq hc h
    obtain ⟨hlow, hhigh⟩ := rand_bounds
    refine ⟨⟨1375937516058605863, by decide, ?_⟩, ⟨12165231662994148584, by decide, ?_⟩⟩
    · rw [hserve, hlow]
      exact Int.add_zero _
    · rw [hserve, hhigh]
      omega

end Call

/-- The states and the numbers of a run, call by call. -/
def draws : UInt64 → List Call → List (Call × UInt64 × Int)
  | _, [] => []
  | mState, c :: cs => (c, c.serve mState) :: draws (c.serve mState).1 cs

/-- **Random numbers.** From a seed other than zero neither the state nor an output is ever zero,
every number lies between the bounds of its call, and both bounds are drawn from some seed. -/
theorem draws_within (calls : List Call) (hcalls : ∀ c ∈ calls, c.low ≤ c.high) :
    (∀ seed, seed ≠ 0 → ∀ e ∈ draws seed calls,
      e.2.1 ≠ 0 ∧ output e.2.1 ≠ 0 ∧ e.1.low ≤ e.2.2 ∧ e.2.2 ≤ e.1.high) ∧
    ∀ c ∈ calls, (∃ seed, seed ≠ 0 ∧ (c.serve seed).2 = c.low) ∧
      ∃ seed, seed ≠ 0 ∧ (c.serve seed).2 = c.high := by
  refine ⟨fun seed hseed e he => ?_, fun c hc => Call.serve_attains (hcalls c hc)⟩
  induction calls generalizing seed with
  | nil => cases he
  | cons c cs ih =>
    have hnext : (c.serve seed).1 ≠ 0 := by
      rw [c.serve_fst]
      exact advance_ne_zero hseed
    rcases List.mem_cons.mp he with rfl | hrest
    · exact ⟨hnext, output_ne_zero hnext, Call.serve_mem hseed (hcalls c List.mem_cons_self)⟩
    · exact ih (fun c' hc' => hcalls c' (List.mem_cons_of_mem c hc')) _ hnext hrest

/-- A die, the full range of the signed overload, and a bound at its end. -/
theorem draws_within_three : advance 1 ≠ 0 ∧
    ∀ e ∈ draws 1 [.rand 5, .randSigned Int32.minValue Int32.maxValue, .randUnsigned 7 7],
      e.2.1 ≠ 0 ∧ output e.2.1 ≠ 0 ∧ e.1.low ≤ e.2.2 ∧ e.2.2 ≤ e.1.high :=
  ⟨by decide, (draws_within _ (by decide)).1 1 (by decide)⟩

end CxxKit.Random
