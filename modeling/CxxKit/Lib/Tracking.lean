import CxxKit.Lib.Transition
import Mathlib.Logic.Function.Basic

/-!
Machines that keep track of a total specification.

The specification says with `apply` what every label does to an abstract state, and
`Respects C m as` that every label of the list is used where its contract `C` allows it.
`Tracks P s m as` says that the machine takes every step of the run and that `P` relates its state
to the abstract one all the way.  Where both states are families of objects, a step that writes one
object is judged by that object.
-/

namespace Transition

open Function

variable {σ τ α : Type*}

/-- Every label is used in an abstract state that meets the contract. -/
def Respects (apply : τ → α → τ) (C : τ → α → Prop) : τ → List α → Prop
  | _, [] => True
  | m, a :: as => C m a ∧ Respects apply C (apply m a) as

namespace Machine

variable (M : Machine σ α) (apply : τ → α → τ)

/-- No step fails, and `P` holds before, between and after them. -/
def Tracks (P : σ → τ → Prop) : σ → τ → List α → Prop
  | s, m, [] => P s m
  | s, m, a :: as => P s m ∧ ∃ t, M.step s a = some t ∧ Tracks P t (apply m a) as

variable {M apply}

variable {s : σ} {m : τ} {as : List α} {P : σ → τ → Prop} {C : τ → α → Prop}

theorem Tracks.head (h : M.Tracks apply P s m as) : P s m := by
  cases as with
  | nil => exact h
  | cons a as => exact h.1

/-- Where a run that tracks the specification ends. -/
theorem Tracks.run (h : M.Tracks apply P s m as) :
    ∃ t, M.run s as = some t ∧ P t (as.foldl apply m) := by
  induction as generalizing s m with
  | nil => exact ⟨s, rfl, h⟩
  | cons a as ih =>
    obtain ⟨-, t, hstep, hrest⟩ := h
    obtain ⟨u, hrun, hu⟩ := ih hrest
    exact ⟨u, by simpa only [Machine.run, hstep] using hrun, hu⟩

/-- **Exactness rule.** Over a background `I`, if a step from states that `P` relates succeeds with
related states exactly when it meets `C`, then a run tracks the specification exactly when all its
steps meet `C`. -/
theorem tracks_iff_respects {I P : σ → τ → Prop} {A C : τ → α → Prop}
    (hI : ∀ s m a t, I s m → P s m → A m a → M.step s a = some t → P t (apply m a) →
      I t (apply m a))
    (hstep : ∀ s m a, I s m → P s m → A m a →
      ((∃ t, M.step s a = some t ∧ P t (apply m a)) ↔ C m a))
    (hIs : I s m) (hP : P s m) (hA : Respects apply A m as) :
    M.Tracks apply P s m as ↔ Respects apply C m as := by
  induction as generalizing s m with
  | nil => exact ⟨fun _ => trivial, fun _ => hP⟩
  | cons a as ih =>
    constructor
    · rintro ⟨-, t, ht, hrest⟩
      have hIt := hI s m a t hIs hP hA.1 ht hrest.head
      exact ⟨(hstep s m a hIs hP hA.1).mp ⟨t, ht, hrest.head⟩, (ih hIt hrest.head hA.2).mp hrest⟩
    · rintro ⟨hC, hrest⟩
      obtain ⟨t, ht, hPt⟩ := (hstep s m a hIs hP hA.1).mpr hC
      exact ⟨hP, t, ht, (ih (hI s m a t hIs hP hA.1 ht hPt) hPt hA.2).mpr hrest⟩

/-- **Simulation rule.** -/
theorem tracks_of_respects
    (hstep : ∀ s m a, P s m → C m a → ∃ t, M.step s a = some t ∧ P t (apply m a)) (hP : P s m)
    (hC : Respects apply C m as) : M.Tracks apply P s m as := by
  induction as generalizing s m with
  | nil => exact hP
  | cons a as ih =>
    obtain ⟨t, ht, hPt⟩ := hstep s m a hP hC.1
    exact ⟨hP, t, ht, ih hPt hC.2⟩

end Machine

section Families

variable {ι : Type*} [DecidableEq ι] {R : σ → τ → Prop} {f : ι → σ} {g : ι → τ}

/-- A relation that holds for all objects holds after one of them is written. -/
theorem forall_update (h : ∀ k, R (f k) (g k)) {i : ι} {a : σ} {b : τ} (hab : R a b) (k : ι) :
    R (update f i a k) (update g i b k) := by
  by_cases hk : k = i
  · subst hk
    rwa [update_self, update_self]
  · rw [update_of_ne hk, update_of_ne hk]
    exact h k

theorem forall_update_iff (h : ∀ k, R (f k) (g k)) (i : ι) (a : σ) (b : τ) :
    (∀ k, R (update f i a k) (update g i b k)) ↔ R a b := by
  constructor
  · intro hall
    have hi := hall i
    rwa [update_self, update_self] at hi
  · exact fun hab => forall_update h hab

end Families

end Transition
