import CxxKit.Lib.Moments
import CxxKit.Lib.Tracking
import Mathlib.Data.Rat.Defs
import Mathlib.Order.WithBot

/-!
# Running statistics

`RunningStatistics` of `running_statistics.hpp` over exact numbers: `double` and the sample type are
the rationals, the counter an integer.  A division by zero gives no number, and the call that makes
it has no result.

A run works on any number of objects, all of them fresh at first; `merge_statistics` takes any of
them, the object itself included.  What an object stands for is the multiset of its samples.
Count, mean and variance are those of the multiset as long as no removal takes the last sample of an
object.  The sum is not: only `add_sample` keeps `mSum`, and the end of the file says exactly which
runs do not show it.
-/

namespace CxxKit.RunningStatistics

open Function Moments Multiset Option Transition

/-- `RunningStatistics`, with the infinities that `mMin` and `mMax` start from. -/
structure Stats where
  mSize : ℤ := 0
  mMin : WithTop ℚ := ⊤
  mMax : WithBot ℚ := ⊥
  mMean : ℚ := 0
  mCumul : ℚ := 0
  mSum : ℚ := 0
  deriving DecidableEq

namespace Stats

/-- `a / n`. -/
def quotient (a : ℚ) (n : ℤ) : Option ℚ := if n = 0 then none else some (a / n)

section

variable (s : Stats)

def addSample (sample : ℚ) : Option Stats := do
  let mSize := s.mSize + 1
  let delta := sample - s.mMean
  let step ← quotient delta mSize
  let mMean := s.mMean + step
  let delta2 := sample - mMean
  return { mSize, mMean, mMin := min s.mMin sample, mMax := max s.mMax sample,
           mSum := s.mSum + sample, mCumul := s.mCumul + delta * delta2 }

def removeSample (sample : ℚ) : Option Stats :=
  if s.mSize = 0 then some s
  else do
    let mSize := s.mSize - 1
    let delta := sample - s.mMean
    let step ← quotient delta mSize
    let mMean := s.mMean - step
    let delta2 := sample - mMean
    return { s with mSize, mMean, mCumul := s.mCumul - delta * delta2 }

/-- `Delta::operator()`. -/
def delta (newMean : ℚ) (stats : Stats) : ℚ :=
  stats.mSize * (newMean * (newMean - 2 * stats.mMean) + stats.mMean * stats.mMean)

/-- `merge_statistics`. The fields that it reads of `other` are read before they are written, so
that `other` may be the object itself. -/
def mergeStatistics (s other : Stats) : Option Stats :=
  if other.mSize = 0 then some s
  else do
    let newSize := s.mSize + other.mSize
    let newMean ← quotient (s.mMean * s.mSize + other.mMean * other.mSize) newSize
    return { s with mSize := newSize, mMean := newMean, mMin := min s.mMin other.mMin,
                    mMax := max s.mMax other.mMax,
                    mCumul := s.mCumul + delta newMean s + other.mCumul + delta newMean other }

def size : ℤ := s.mSize

/-- What the getters share: nothing is reported without samples. -/
def report {α : Type} (s : Stats) (value : α) : Option α :=
  if s.mSize = 0 then none else some value

def getMin : Option (WithTop ℚ) := s.report s.mMin

def getMax : Option (WithBot ℚ) := s.report s.mMax

def getSum : Option ℚ := s.report s.mSum

def getMean : Option ℚ := s.report s.mMean

def getVariance : Option ℚ := s.report (s.mCumul / s.mSize)

end

theorem quotient_of_ne {n : ℤ} (hn : n ≠ 0) (a : ℚ) : quotient a n = some (a / n) := if_neg hn

theorem addSample_eq {s : Stats} (hsize : s.mSize + 1 ≠ 0) (x : ℚ) : s.addSample x =
    some { mSize := s.mSize + 1
           mMin := min s.mMin x
           mMax := max s.mMax x
           mMean := s.mMean + (x - s.mMean) / ((s.mSize + 1 : ℤ) : ℚ)
           mCumul := s.mCumul +
             (x - s.mMean) * (x - (s.mMean + (x - s.mMean) / ((s.mSize + 1 : ℤ) : ℚ)))
           mSum := s.mSum + x } := by
  simp only [addSample, quotient_of_ne hsize]
  rfl

theorem removeSample_eq {s : Stats} (hsize : s.mSize ≠ 0) (hsize' : s.mSize - 1 ≠ 0) (x : ℚ) :
    s.removeSample x =
    some { s with
           mSize := s.mSize - 1
           mMean := s.mMean - (x - s.mMean) / ((s.mSize - 1 : ℤ) : ℚ)
           mCumul := s.mCumul -
             (x - s.mMean) * (x - (s.mMean - (x - s.mMean) / ((s.mSize - 1 : ℤ) : ℚ))) } := by
  simp only [removeSample, if_neg hsize, quotient_of_ne hsize']
  rfl

theorem mergeStatistics_eq {s other : Stats} (hother : other.mSize ≠ 0)
    (hsize : s.mSize + other.mSize ≠ 0) {newMean : ℚ}
    (hmean : newMean = (s.mMean * s.mSize + other.mMean * other.mSize) /
      ((s.mSize + other.mSize : ℤ) : ℚ)) : s.mergeStatistics other =
    some { s with
           mSize := s.mSize + other.mSize
           mMean := newMean
           mMin := min s.mMin other.mMin
           mMax := max s.mMax other.mMax
           mCumul := s.mCumul + delta newMean s + other.mCumul + delta newMean other } := by
  simp only [mergeStatistics, if_neg hother, quotient_of_ne hsize, ← hmean]
  rfl

end Stats

/-! ### Runs -/

inductive Op where
  | addSample (i : ℕ) (sample : ℚ)
  | removeSample (i : ℕ) (sample : ℚ)
  | mergeStatistics (i j : ℕ)

/-- A call on one of the objects. -/
def step (objects : ℕ → Stats) : Op → Option (ℕ → Stats)
  | .addSample i sample => ((objects i).addSample sample).map (update objects i)
  | .removeSample i sample => ((objects i).removeSample sample).map (update objects i)
  | .mergeStatistics i j =>
    ((objects i).mergeStatistics (objects j)).map (update objects i)

def machine : Machine (ℕ → Stats) Op where
  init _ := {}
  step := step

/-- What the objects stand for. -/
abbrev Samples := ℕ → Multiset ℚ

def Samples.apply (m : Samples) : Op → Samples
  | .addSample i sample => update m i (sample ::ₘ m i)
  | .removeSample i sample => update m i ((m i).erase sample)
  | .mergeStatistics i j => update m i (m i + m j)

open Samples

/-- The samples after a list of calls. -/
def samples (ops : List Op) : Samples := ops.foldl apply fun _ => 0

/-- Only samples that are present are removed. -/
def Present (m : Samples) : Op → Prop
  | .removeSample i sample => sample ∈ m i
  | _ => True

/-- The removal leaves a sample. -/
def Leaving (m : Samples) : Op → Prop
  | .removeSample i sample => (m i).erase sample ≠ 0
  | _ => True

/-! ### Count, mean and variance -/

theorem add_ne_zero_of_right {m l : Multiset ℚ} (hl : l ≠ 0) : m + l ≠ 0 := by
  intro h0
  have hcard := congrArg card h0
  rw [card_add, card_zero] at hcard
  exact hl (card_eq_zero.mp (by omega))

/-- The object has the count and the moments of the samples. -/
structure Exact (s : Stats) (m : Multiset ℚ) : Prop where
  size : s.mSize = m.card
  moments : Describes m s.mMean s.mCumul

namespace Exact

variable {s t other : Stats} {m l : Multiset ℚ} {x : ℚ}

theorem fresh : Exact {} 0 := ⟨rfl, describes_zero 0⟩

variable (h : Exact s m)
include h

theorem size_eq_zero : s.mSize = 0 ↔ m = 0 := by
  rw [h.size, Int.natCast_eq_zero, card_eq_zero]

theorem report_eq {α : Type} (value : α) : s.report value = if m = 0 then none else some value := by
  simp only [Stats.report, h.size_eq_zero]

theorem getMean_eq : s.getMean = if m = 0 then none else some (mean m) := by
  rw [Stats.getMean, h.report_eq]
  split
  · rfl
  next hm => rw [h.moments.mean_eq hm]

theorem getVariance_eq : s.getVariance = if m = 0 then none else some (variance m) := by
  rw [Stats.getVariance, h.report_eq, h.size, Int.cast_natCast]
  split
  · rfl
  next hm => rw [h.moments.variance_eq hm]

theorem addSample (x : ℚ) :
    ∃ t, s.addSample x = some t ∧ Exact t (x ::ₘ m) ∧ t.mSum = s.mSum + x := by
  have hne : s.mSize + 1 ≠ 0 := by
    rw [h.size]
    omega
  refine ⟨_, Stats.addSample_eq hne x, ⟨?_, ?_⟩, rfl⟩
  · simp [h.size]
  · refine h.moments.cons x ?_ rfl
    simp [h.size]

omit h in
theorem removeSample (h : Exact s (x ::ₘ m)) (hm : m ≠ 0) :
    ∃ t, s.removeSample x = some t ∧ Exact t m ∧ t.mSum = s.mSum := by
  have hsize : s.mSize = m.card + 1 := by simp [h.size]
  have hcard : 0 < m.card := card_pos.mpr hm
  have hne : s.mSize ≠ 0 := by omega
  have hne' : s.mSize - 1 ≠ 0 := by omega
  refine ⟨_, Stats.removeSample_eq hne hne' x, ⟨?_, ?_⟩, rfl⟩
  · simp [hsize]
  · refine h.moments.of_cons hm ?_ rfl
    simp [hsize]

omit h in
/-- The removal of the last sample divides by zero. -/
theorem removeSample_last (h : Exact s {x}) : s.removeSample x = none := by
  have hsize : s.mSize = 1 := by simp [h.size]
  simp [Stats.removeSample, Stats.quotient, hsize]

theorem mergeStatistics (hother : Exact other l) :
    ∃ t, s.mergeStatistics other = some t ∧ Exact t (m + l) ∧ t.mSum = s.mSum := by
  by_cases hl : l = 0
  · refine ⟨s, if_pos (hother.size_eq_zero.mpr hl), ?_, rfl⟩
    rw [hl, add_zero]
    exact h
  · have hsum := add_ne_zero_of_right (m := m) hl
    have hother0 : other.mSize ≠ 0 := mt hother.size_eq_zero.mp hl
    have hcard : s.mSize + other.mSize = (m + l).card := by simp [h.size, hother.size]
    have hne : s.mSize + other.mSize ≠ 0 := by
      rw [hcard]
      exact_mod_cast mt card_eq_zero.mp hsum
    refine ⟨_, Stats.mergeStatistics_eq hother0 hne rfl, ⟨hcard, ?_⟩, rfl⟩
    refine h.moments.add hother.moments hsum ?_ ?_
    · simp [h.size, hother.size]
    · simp [Stats.delta, h.size, hother.size]

end Exact

/-- All objects have the count and the moments of their samples. -/
def AllExact (objects : ℕ → Stats) (m : Samples) : Prop := ∀ i, Exact (objects i) (m i)

variable {objects : ℕ → Stats} {m : Samples}

/-- **One call.** -/
theorem step_allExact (h : AllExact objects m) (op : Op) (hop : Present m op ∧ Leaving m op) :
    ∃ t, machine.step objects op = some t ∧ AllExact t (m.apply op) := by
  cases op with
  | addSample i x =>
    obtain ⟨t, ht, hexact, -⟩ := (h i).addSample x
    exact ⟨_, by simp only [machine, step, ht, map_some], forall_update h hexact⟩
  | removeSample i x =>
    have hi : Exact (objects i) (x ::ₘ (m i).erase x) := by
      rw [cons_erase hop.1]
      exact h i
    obtain ⟨t, ht, hexact, -⟩ := hi.removeSample hop.2
    exact ⟨_, by simp only [machine, step, ht, map_some], forall_update h hexact⟩
  | mergeStatistics i j =>
    obtain ⟨t, ht, hexact, -⟩ := (h i).mergeStatistics (h j)
    exact ⟨_, by simp only [machine, step, ht, map_some], forall_update h hexact⟩

/-- **Statistics of the samples.** After every list of calls that removes only samples that are
present, and never the last one of an object, all objects report the count, the mean and the
variance of their samples. -/
theorem statistics_exact (ops : List Op)
    (hops : Respects apply (fun m op => Present m op ∧ Leaving m op) (fun _ => 0) ops) :
    ∃ objects, machine.run machine.init ops = some objects ∧ ∀ i,
      (objects i).size = (samples ops i).card ∧
      (objects i).getMean =
        (if samples ops i = 0 then none else some (mean (samples ops i))) ∧
      (objects i).getVariance =
        (if samples ops i = 0 then none else some (variance (samples ops i))) := by
  have htracks : machine.Tracks apply AllExact machine.init (fun _ => 0) ops :=
    Machine.tracks_of_respects (fun _ _ op h hop => step_allExact h op hop)
      (fun _ => Exact.fresh) hops
  obtain ⟨objects, hrun, hexact⟩ := htracks.run
  exact ⟨objects, hrun, fun i =>
    ⟨(hexact i).size, (hexact i).getMean_eq, (hexact i).getVariance_eq⟩⟩

/-- Two parts that are merged, after a sample of the second one was taken out again. -/
def mergedParts : List Op :=
  [.addSample 0 1, .addSample 1 5, .addSample 1 3, .removeSample 1 5, .mergeStatistics 0 1]

theorem statistics_exact_merged :
    Respects apply (fun m op => Present m op ∧ Leaving m op) (fun _ => 0) mergedParts ∧
      ∃ objects, machine.run machine.init mergedParts = some objects ∧
        (objects 0).getMean = some (mean (samples mergedParts 0)) := by
  have hops : Respects apply (fun m op => Present m op ∧ Leaving m op) (fun _ => 0)
      mergedParts := by
    simp [mergedParts, Respects, Present, Leaving, apply]
  obtain ⟨objects, hrun, hexact⟩ := statistics_exact mergedParts hops
  refine ⟨hops, objects, hrun, ?_⟩
  rw [(hexact 0).2.1]
  simp [samples, mergedParts, apply]

/-! ### The sum -/

/-- In addition, the object reports the sum of the samples, and is as constructed without any. -/
structure SumExact (s : Stats) (m : Multiset ℚ) : Prop extends Exact s m where
  sum : s.getSum = if m = 0 then none else some m.sum
  fresh : m = 0 → s = {}

namespace SumExact

variable {s : Stats} {m : Multiset ℚ}

theorem init : SumExact {} 0 := ⟨Exact.fresh, rfl, fun _ => rfl⟩

/-- Behind the getter is `mSum`. -/
theorem mSum_eq (h : SumExact s m) : s.mSum = m.sum := by
  by_cases hm : m = 0
  · rw [h.fresh hm, hm]
    rfl
  · have hsum := h.sum
    rw [Stats.getSum, h.report_eq, if_neg hm, if_neg hm] at hsum
    exact Option.some.inj hsum

theorem iff_of_exact (h : Exact s m) (hm : m ≠ 0) : SumExact s m ↔ s.mSum = m.sum := by
  refine ⟨mSum_eq, fun hsum => ⟨h, ?_, fun h0 => absurd h0 hm⟩⟩
  rw [Stats.getSum, h.report_eq, hsum]

end SumExact

/-- The calls after which `mSum` is still right: it misses what is removed or merged. -/
def SumKept (m : Samples) : Op → Prop
  | .addSample _ _ => True
  | .removeSample i sample => (m i).erase sample ≠ 0 ∧ sample = 0
  | .mergeStatistics _ j => (m j).sum = 0

/-- A call that succeeds is judged by the object that it writes. -/
theorem sumExact_written {op : Op} {i : ℕ} {t : Stats} {l : Multiset ℚ}
    (h : ∀ k, SumExact (objects k) (m k))
    (hstep : machine.step objects op = some (update objects i t))
    (happly : m.apply op = update m i l) :
    (∃ u, machine.step objects op = some u ∧ ∀ k, SumExact (u k) (m.apply op k)) ↔
      SumExact t l := by
  rw [happly]
  constructor
  · rintro ⟨u, hu, hexact⟩
    obtain rfl := Option.some.inj (hstep.symm.trans hu)
    exact (forall_update_iff h i t l).mp hexact
  · exact fun ht => ⟨_, hstep, forall_update h ht⟩

/-- **One call** keeps the sums exactly if it is one of those. -/
theorem step_sumExact_iff (h : ∀ k, SumExact (objects k) (m k)) (op : Op) (hop : Present m op) :
    (∃ u, machine.step objects op = some u ∧ ∀ k, SumExact (u k) (m.apply op k)) ↔
      SumKept m op := by
  cases op with
  | addSample i x =>
    obtain ⟨t, ht, hexact, hsum⟩ := (h i).toExact.addSample x
    have hstep : machine.step objects (.addSample i x) = some (update objects i t) := by
      simp only [machine, step, ht, map_some]
    rw [sumExact_written h hstep rfl,
      SumExact.iff_of_exact hexact cons_ne_zero, hsum, (h i).mSum_eq,
      sum_cons, SumKept, iff_true]
    exact add_comm _ _
  | removeSample i x =>
    have hi : Exact (objects i) (x ::ₘ (m i).erase x) := by
      rw [cons_erase hop]
      exact (h i).toExact
    by_cases hlast : (m i).erase x = 0
    · rw [hlast] at hi
      constructor
      · rintro ⟨u, hu, -⟩
        simp only [machine, step, hi.removeSample_last, map_none] at hu
        cases hu
      · exact fun hkept => absurd hlast hkept.1
    · obtain ⟨t, ht, hexact, hsum⟩ := hi.removeSample hlast
      have hstep : machine.step objects (.removeSample i x) =
          some (update objects i t) := by
        simp only [machine, step, ht, map_some]
      rw [sumExact_written h hstep rfl,
        SumExact.iff_of_exact hexact hlast, hsum, (h i).mSum_eq, ← sum_erase hop,
        add_eq_right]
      exact ⟨fun hx => ⟨hlast, hx⟩, fun hkept => hkept.2⟩
  | mergeStatistics i j =>
    obtain ⟨t, ht, hexact, hsum⟩ := (h i).toExact.mergeStatistics (h j).toExact
    have hstep : machine.step objects (.mergeStatistics i j) =
        some (update objects i t) := by
      simp only [machine, step, ht, map_some]
    rw [sumExact_written h hstep rfl, SumKept]
    by_cases hj : m j = 0
    · -- nothing is merged, and the object is not touched
      have hsame : (objects i).mergeStatistics (objects j) = some (objects i) :=
        if_pos ((h j).size_eq_zero.mpr hj)
      obtain rfl := Option.some.inj (hsame.symm.trans ht)
      rw [hj, add_zero]
      exact ⟨fun _ => sum_zero, fun _ => h i⟩
    · rw [SumExact.iff_of_exact hexact (add_ne_zero_of_right hj), hsum, (h i).mSum_eq,
        sum_add, eq_comm, add_eq_left]

/-- **The sums**, exactly. For every list of calls that removes only samples that are present: no
call divides by zero, and all objects report the sums of their samples and are as constructed
without any, all the way, if and only if every removal leaves a sample and takes a zero, and every
merge takes samples whose sum is zero. -/
theorem sums_exact_iff (ops : List Op) (hops : Respects apply Present (fun _ => 0) ops) :
    machine.Tracks apply (fun objects m => ∀ i, SumExact (objects i) (m i)) machine.init
        (fun _ => 0) ops ↔
      Respects apply SumKept (fun _ => 0) ops :=
  Machine.tracks_iff_respects (I := fun _ _ => True) (fun _ _ _ _ _ _ _ _ _ => trivial)
    (fun _ _ op _ h hop => step_sumExact_iff h op hop) trivial
    (fun _ => SumExact.init) hops

/-- A zero may be removed. -/
theorem sums_exact_zero_removed :
    machine.Tracks apply (fun objects m => ∀ i, SumExact (objects i) (m i)) machine.init
      (fun _ => 0) [.addSample 0 2, .addSample 0 0, .removeSample 0 0] := by
  refine (sums_exact_iff _ ?_).mpr ?_
  · simp [Respects, Present, apply]
  · simp [Respects, SumKept, apply]

/-- The sum still has the sample that was removed, it misses the samples that were merged, and the
removal of the last sample divides by zero. -/
theorem sum_not_kept :
    ((machine.run machine.init [.addSample 0 1, .addSample 0 2, .removeSample 0 1]).map
        fun objects => (objects 0).getSum) = some (some 3) ∧
      (samples [.addSample 0 1, .addSample 0 2, .removeSample 0 1] 0).sum = 2 ∧
      ((machine.run machine.init [.addSample 1 2, .mergeStatistics 0 1]).map
        fun objects => (objects 0).getSum) = some (some 0) ∧
      (samples [.addSample 1 2, .mergeStatistics 0 1] 0).sum = 2 ∧
      (machine.run machine.init [.addSample 0 1, .removeSample 0 1]).isNone := by
  decide +kernel

end CxxKit.RunningStatistics
