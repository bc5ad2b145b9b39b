import Mathlib.Logic.Basic

/-!
Deterministic machines with partial steps.

A step that is not enabled, or that the modelled program cannot survive, is
`none`; a run is a list of labels.  `Always P s as` says that `P` holds in every
state the run `as` passes through from `s`, and `Meets C s as` that every step
the run takes is taken from a state that meets the side condition `C`.  The two
rules below turn one-step facts into facts about whole runs.
-/

namespace Transition

/-- A machine: its initial state and what one labelled step does. -/
structure Machine (σ α : Type*) where
  init : σ
  step : σ → α → Option σ

variable {σ α : Type*}

namespace Machine

variable (M : Machine σ α)

/-- The state a run ends in, if every step of it is enabled. -/
def run : σ → List α → Option σ
  | s, [] => some s
  | s, a :: as => match M.step s a with
    | none => none
    | some t => run t as

/-- `P` holds in every state that the run passes through. -/
def Always (P : σ → Prop) : σ → List α → Prop
  | s, [] => P s
  | s, a :: as => P s ∧ ∀ t, M.step s a = some t → Always P t as

/-- Every step the run takes meets the condition `C` on the state before it. -/
def Meets (C : σ → α → Prop) : σ → List α → Prop
  | _, [] => True
  | s, a :: as => ∀ t, M.step s a = some t → C s a ∧ Meets C t as

variable {M}

variable {s : σ} {as : List α} {C : σ → α → Prop} {P Q I : σ → Prop}

theorem Always.head {P : σ → Prop} (h : M.Always P s as) : P s := by
  cases as with
  | nil => exact h
  | cons a as => exact h.1

/-- What holds throughout a run holds where it ends. -/
theorem Always.last {t : σ} (h : M.Always P s as) (hrun : M.run s as = some t) : P t := by
  induction as generalizing s with
  | nil =>
    cases hrun
    exact h
  | cons a as ih =>
    rw [run] at hrun
    split at hrun
    · cases hrun
    next u hu => exact ih (h.2 u hu) hrun

theorem Always.mono (hPQ : ∀ s, P s → Q s) (h : M.Always P s as) : M.Always Q s as := by
  induction as generalizing s with
  | nil => exact hPQ s h
  | cons a as ih => exact ⟨hPQ s h.1, fun t ht => ih (h.2 t ht)⟩

theorem Always.and (hP : M.Always P s as) (hQ : M.Always Q s as) :
    M.Always (fun s => P s ∧ Q s) s as := by
  induction as generalizing s with
  | nil => exact ⟨hP, hQ⟩
  | cons a as ih => exact ⟨⟨hP.1, hQ.1⟩, fun t ht => ih (hP.2 t ht) (hQ.2 t ht)⟩

/-- **Invariant rule.** What every step that meets `C` preserves holds in every
state of a run whose steps all meet `C`. -/
theorem always_of_meets (hstep : ∀ s a t, I s → C s a → M.step s a = some t → I t) (hinit : I s)
    (hmeets : M.Meets C s as) : M.Always I s as := by
  induction as generalizing s with
  | nil => exact hinit
  | cons a as ih =>
    refine ⟨hinit, fun t ht => ?_⟩
    obtain ⟨hC, hrest⟩ := hmeets t ht
    exact ih (hstep s a t hinit hC ht) hrest

/-- The invariant rule without a side condition. -/
theorem always_of_step (hstep : ∀ s a t, I s → M.step s a = some t → I t) (hinit : I s)
    (as : List α) : M.Always I s as := by
  induction as generalizing s with
  | nil => exact hinit
  | cons a as ih => exact ⟨hinit, fun t ht => ih (hstep s a t hinit ht)⟩

/-- **Exactness rule.** Over a background invariant `I`, if a step from a state
with `P` leads to a state with `P` exactly when it meets `C`, then a run keeps
`P` throughout exactly when all its steps meet `C`. -/
theorem always_iff_meets {I P : σ → Prop} (hI : ∀ s a t, I s → M.step s a = some t → I t)
    (hP : ∀ s a t, I s → P s → M.step s a = some t → (P t ↔ C s a)) (hIs : I s) (hPs : P s)
    (as : List α) : M.Always P s as ↔ M.Meets C s as := by
  induction as generalizing s with
  | nil => exact ⟨fun _ => trivial, fun _ => hPs⟩
  | cons a as ih =>
    constructor
    · intro h t ht
      have hPt : P t := (h.2 t ht).head
      exact ⟨(hP s a t hIs hPs ht).mp hPt, (ih (hI s a t hIs ht) hPt).mp (h.2 t ht)⟩
    · intro h
      refine ⟨hPs, fun t ht => ?_⟩
      obtain ⟨hC, hrest⟩ := h t ht
      have hPt : P t := (hP s a t hIs hPs ht).mpr hC
      exact (ih (hI s a t hIs ht) hPt).mpr hrest

/-- The machine that takes only the steps whose label satisfies `L`. -/
def restrict (M : Machine σ α) (L : α → Bool) : Machine σ α where
  init := M.init
  step s a := if L a then M.step s a else none

theorem restrict_step {L : α → Bool} {t : σ} {a : α} :
    (M.restrict L).step s a = some t ↔ L a = true ∧ M.step s a = some t := by
  unfold restrict
  dsimp only
  split <;> simp_all

end Machine

end Transition
