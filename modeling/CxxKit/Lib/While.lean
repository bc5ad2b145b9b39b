import Mathlib.Logic.Basic

/-!
Loops that run while there is something left to do.

`loop guard body rounds` makes at most `rounds` tests of the guard and is `none` if the
guard still held at the last one or if the body failed.  `loop_total` is the rule of total
correctness: an invariant, and a measure that every round makes smaller.
-/

namespace While

variable {σ α : Type*}

def loop (guard : σ → Option α) (body : α → σ → Option σ) : Nat → σ → Option σ
  | 0, _ => none
  | rounds + 1, s =>
    match guard s with
    | none => some s
    | some x =>
      match body x s with
      | none => none
      | some t => loop guard body rounds t

variable {guard : σ → Option α} {body : α → σ → Option σ}

/-- More rounds, or a body that is defined more often, do not change what the loop does. -/
theorem loop_mono {body' : α → σ → Option σ} {rounds rounds' : Nat} {s t : σ}
    (hbody : ∀ x s t, body x s = some t → body' x s = some t) (hle : rounds ≤ rounds')
    (h : loop guard body rounds s = some t) : loop guard body' rounds' s = some t := by
  induction rounds generalizing rounds' s with
  | zero => cases h
  | succ rounds ih =>
    cases rounds' with
    | zero => omega
    | succ rounds' =>
      unfold loop at h ⊢
      cases hguard : guard s with
      | none =>
        rw [hguard] at h
        exact h
      | some x =>
        rw [hguard] at h
        dsimp only at h ⊢
        cases hrun : body x s with
        | none =>
          rw [hrun] at h
          cases h
        | some u =>
          rw [hrun] at h
          rw [hbody x s u hrun]
          exact ih (Nat.le_of_succ_le_succ hle) h

/-- **Total correctness.** With enough rounds the loop ends, always in the same state, where
the invariant holds and the guard does not. -/
theorem loop_total (I : σ → Prop) (measure : σ → Nat)
    (hbody : ∀ s x, I s → guard s = some x → ∃ t, body x s = some t ∧ I t ∧ measure t < measure s)
    {s : σ} (hs : I s) :
    ∃ t, (∀ rounds, measure s < rounds → loop guard body rounds s = some t) ∧ I t ∧
      guard t = none := by
  induction hn : measure s using Nat.strongRecOn generalizing s with
  | ind n ih =>
    cases hguard : guard s with
    | none =>
      refine ⟨s, fun rounds hrounds => ?_, hs, hguard⟩
      cases rounds with
      | zero => cases hrounds
      | succ rounds => simp [loop, hguard]
    | some x =>
      obtain ⟨t, hrun, ht, hlt⟩ := hbody s x hs hguard
      obtain ⟨u, hloop, hu⟩ := ih (measure t) (hn ▸ hlt) ht rfl
      refine ⟨u, fun rounds hrounds => ?_, hu⟩
      cases rounds with
      | zero => cases hrounds
      | succ rounds =>
        simp only [loop, hguard, hrun]
        exact hloop rounds (by omega)

end While
