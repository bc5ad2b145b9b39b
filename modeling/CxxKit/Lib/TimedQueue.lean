import Mathlib.Data.List.Basic

/-!
Histories of a queue whose tasks may have a due time.

A history lists what happened, the latest first: postings, cancellations of a task with all its
postings, and pops.  `waiting` is what has been posted and neither cancelled nor popped since.  A
history is `Legit` if postings are numbered in their order and every pop takes a posting that may
be served then: of those without a due time the first, of those with one the least, which must be
due and not behind an earlier posting without one.

`Legit.served` says what follows for a whole history: nothing is popped twice or after it was
cancelled, and postings without a due time are popped in their order.
-/

namespace TimedQueue

open List

/-- A posting of a task: its number, and when it is due (`none`: at once). -/
structure Posting (τ T : Type*) where
  number : Nat
  task : τ
  due : Option T
  deriving DecidableEq, Repr

inductive Event (τ T : Type*) where
  | posted (p : Posting τ T)
  | cancelled (task : τ)
  | popped (number : Nat) (now : T)
  deriving DecidableEq, Repr

variable {τ T : Type*} [DecidableEq τ]

def waiting : List (Event τ T) → List (Posting τ T)
  | [] => []
  | .posted p :: h => p :: waiting h
  | .cancelled task :: h => (waiting h).filter (·.task ≠ task)
  | .popped n _ :: h => (waiting h).filter (·.number ≠ n)

section Waiting

variable {h : List (Event τ T)} {p : Posting τ T}

theorem posted_of_waiting (hp : p ∈ waiting h) : .posted p ∈ h := by
  induction h with
  | nil => cases hp
  | cons x h ih =>
    cases x with
    | posted q =>
      rcases mem_cons.mp hp with rfl | hp
      · exact mem_cons_self
      · exact mem_cons_of_mem _ (ih hp)
    | cancelled task | popped n now => exact mem_cons_of_mem _ (ih (mem_of_mem_filter hp))

/-- What waits after a cancellation of its task was posted again. -/
theorem posted_of_cancelled {later earlier : List (Event τ T)} (hp : p ∈ waiting h)
    (hsplit : h = later ++ .cancelled p.task :: earlier) : .posted p ∈ later := by
  induction later generalizing h with
  | nil =>
    subst hsplit
    have := (mem_filter.mp hp).2
    simp at this
  | cons x later ih =>
    subst hsplit
    cases x with
    | posted q =>
      rcases mem_cons.mp hp with rfl | hp
      · exact mem_cons_self
      · exact mem_cons_of_mem _ (ih hp rfl)
    | cancelled task | popped n now => exact mem_cons_of_mem _ (ih (mem_of_mem_filter hp) rfl)

end Waiting

variable [LE T] [LT T]

/-- The posting `p` may be served before all the others that wait. -/
structure Ready (others : List (Posting τ T)) (p : Posting τ T) (now : T) : Prop where
  mem : p ∈ others
  immediate : p.due = none → ∀ q ∈ others, q.due = none → q ≠ p → p.number < q.number
  isDue : ∀ d, p.due = some d → d ≤ now
  least : ∀ d, p.due = some d → ∀ q ∈ others, ∀ e, q.due = some e → q ≠ p →
    d < e ∨ d = e ∧ p.number < q.number
  behind : p.due ≠ none → ∀ q ∈ others, q.due = none → p.number < q.number

def Legit : List (Event τ T) → Prop
  | [] => True
  | .posted p :: h => Legit h ∧ ∀ q, .posted q ∈ h → q.number < p.number
  | .cancelled _ :: h => Legit h
  | .popped n now :: h => Legit h ∧ ∃ p, p.number = n ∧ Ready (waiting h) p now

/-- How a posting is served that is popped after the history `h`. -/
structure Served (h : List (Event τ T)) (p : Posting τ T) (now : T) : Prop
    extends Ready (waiting h) p now where
  once : ∀ now', .popped p.number now' ∉ h
  inOrder : p.due = none → ∀ q now', .posted q ∈ h → q.due = none →
    .popped q.number now' ∈ h → q.number < p.number
  notCancelled : ∀ later earlier, h = later ++ .cancelled p.task :: earlier → .posted p ∈ later

section Legit

variable {h : List (Event τ T)} {p q : Posting τ T} {n : Nat} {now : T}

theorem Legit.tail {x : Event τ T} (hl : Legit (x :: h)) : Legit h := by
  cases x with
  | posted p | popped n now => exact hl.1
  | cancelled task => exact hl

section

variable (hl : Legit h) {earlier : List (Event τ T)}

include hl

theorem Legit.suffix (hs : earlier <:+ h) : Legit earlier := by
  induction h with
  | nil =>
    rw [suffix_nil.mp hs]
    exact hl
  | cons x h ih =>
    rcases suffix_cons_iff.mp hs with rfl | hs
    · exact hl
    · exact ih hl.tail hs

/-- The number of a posting tells it apart. -/
theorem Legit.number_inj (hp : .posted p ∈ h) (hq : .posted q ∈ h)
    (heq : p.number = q.number) : p = q := by
  induction h with
  | nil => cases hp
  | cons x h ih =>
    rcases mem_cons.mp hp with rfl | hp'
    · rcases mem_cons.mp hq with hx | hq'
      · exact (Event.posted.inj hx).symm
      · exact absurd heq (Nat.ne_of_gt (hl.2 q hq'))
    · rcases mem_cons.mp hq with rfl | hq'
      · exact absurd heq (Nat.ne_of_lt (hl.2 p hp'))
      · exact ih hl.tail hp' hq'

/-- A pop takes one posting out of those that wait. -/
theorem Legit.mem_waiting_popped (hp : p ∈ waiting h) :
    q ∈ waiting (.popped p.number now :: h) ↔ q ∈ waiting h ∧ q ≠ p := by
  rw [waiting, mem_filter, decide_eq_true_iff]
  constructor
  · rintro ⟨hq, hne⟩
    exact ⟨hq, fun heq => hne (congrArg _ heq)⟩
  · rintro ⟨hq, hne⟩
    exact ⟨hq, fun heq =>
      hne (hl.number_inj (posted_of_waiting hq) (posted_of_waiting hp) heq)⟩

theorem Legit.exists_posted (hn : .popped n now ∈ h) : ∃ p, .posted p ∈ h ∧ p.number = n := by
  induction h with
  | nil => cases hn
  | cons x h ih =>
    rcases mem_cons.mp hn with rfl | hn
    · obtain ⟨p, hp, hready⟩ := hl.2
      exact ⟨p, mem_cons_of_mem _ (posted_of_waiting hready.mem), hp⟩
    · obtain ⟨p, hp, hnumber⟩ := ih hl.tail hn
      exact ⟨p, mem_cons_of_mem _ hp, hnumber⟩

/-- What was popped does not wait. -/
theorem Legit.not_popped (hp : p ∈ waiting h) : .popped p.number now ∉ h := by
  intro hn
  induction h with
  | nil => cases hn
  | cons x h ih =>
    cases x with
    | posted q =>
      have hn' : .popped p.number now ∈ h := by simpa using hn
      rcases mem_cons.mp hp with rfl | hp'
      · obtain ⟨q, hq, hnumber⟩ := hl.tail.exists_posted hn'
        exact absurd hnumber (Nat.ne_of_lt (hl.2 q hq))
      · exact ih hl.tail hp' hn'
    | cancelled task =>
      exact ih hl.tail (mem_of_mem_filter hp) (by simpa using hn)
    | popped n now' =>
      obtain ⟨hp', hne⟩ := mem_filter.mp hp
      rcases mem_cons.mp hn with heq | hn'
      · cases heq
        simp at hne
      · exact ih hl.tail hp' hn'

/-- What was popped without a due time was posted before all those that still wait. -/
theorem Legit.popped_lt (hp : p ∈ waiting h) (hpd : p.due = none)
    (hq : .posted q ∈ h) (hqd : q.due = none) (hn : .popped q.number now ∈ h) :
    q.number < p.number := by
  induction h with
  | nil => cases hn
  | cons x h ih =>
    cases x with
    | posted r =>
      have hn' : .popped q.number now ∈ h := by simpa using hn
      obtain ⟨q', hq', hnumber⟩ := hl.tail.exists_posted hn'
      rcases mem_cons.mp hp with rfl | hp'
      · rw [← hnumber]
        exact hl.2 q' hq'
      · rcases mem_cons.mp hq with heq | hq''
        · cases heq
          exact absurd hnumber (Nat.ne_of_lt (hl.2 q' hq'))
        · exact ih hl.tail hp' hq'' hn'
    | cancelled task =>
      exact ih hl.tail (mem_of_mem_filter hp) (by simpa using hq) (by simpa using hn)
    | popped n now' =>
      have hq' : .posted q ∈ h := by simpa using hq
      obtain ⟨hp', hne⟩ := mem_filter.mp hp
      rcases mem_cons.mp hn with heq | hn'
      · -- it was just popped, as the first of those without a due time
        cases heq
        obtain ⟨r, hnumber, hready⟩ := hl.2
        obtain rfl : r = q := hl.tail.number_inj (posted_of_waiting hready.mem) hq' hnumber
        refine hready.immediate hqd p hp' hpd ?_
        rintro rfl
        simp at hne
      · exact ih hl.tail hp' hq' hn'

/-- **Every pop of a legit history serves its posting.** -/
theorem Legit.served (hs : .popped n now :: earlier <:+ h) :
    ∃ p, p.number = n ∧ Served earlier p now := by
  have hlegit := hl.suffix hs
  obtain ⟨p, hnumber, hready⟩ := hlegit.2
  refine ⟨p, hnumber, ⟨hready, ?_, ?_, ?_⟩⟩
  · exact fun now' => hlegit.tail.not_popped hready.mem
  · exact fun hpd q now' hq hqd hn => hlegit.tail.popped_lt hready.mem hpd hq hqd hn
  · exact fun later earlier' hsplit => posted_of_cancelled hready.mem hsplit

end

end Legit

end TimedQueue
