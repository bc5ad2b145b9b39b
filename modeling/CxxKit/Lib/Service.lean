import Mathlib.Logic.Basic

/-!
Services: machines that answer every request or fail, and their refinement of a
specification.

A specification is a relation between a state, a request, an answer and the next
state; it may leave the answer open.  `Guarded C s as` says that every request of
the list is made in a state that meets the contract `C`.  `run_refines` lifts a
one-request simulation to request lists: under the contract the service fails at
no request, and its answers are answers of the specification.
-/

namespace Transition

/-- A service: its initial state and how it serves a request. -/
structure Service (σ α ω ε : Type*) where
  init : σ
  step : σ → α → Except ε (σ × ω)

variable {σ τ α ω ε : Type*}

/-- A run of a specification: the requests, the answers, and the states at its ends. -/
inductive SpecRun (spec : τ → α → ω → τ → Prop) : τ → List α → List ω → τ → Prop where
  | nil (m : τ) : SpecRun spec m [] [] m
  | cons {m m₁ m₂ : τ} {a : α} {o : ω} {as : List α} {os : List ω} (head : spec m a o m₁)
      (tail : SpecRun spec m₁ as os m₂) : SpecRun spec m (a :: as) (o :: os) m₂

theorem SpecRun.cons_inv {spec : τ → α → ω → τ → Prop} {m m₂ : τ} {a : α} {o : ω} {as : List α}
    {os : List ω} (h : SpecRun spec m (a :: as) (o :: os) m₂) :
    ∃ m₁, spec m a o m₁ ∧ SpecRun spec m₁ as os m₂ := by
  cases h with
  | cons head tail => exact ⟨_, head, tail⟩

namespace Service

variable (S : Service σ α ω ε)

/-- The answers to a list of requests, and the state after them. -/
def run : σ → List α → Except ε (σ × List ω)
  | s, [] => .ok (s, [])
  | s, a :: as => match S.step s a with
    | .error e => .error e
    | .ok (t, o) => match run t as with
      | .error e => .error e
      | .ok (u, os) => .ok (u, o :: os)

/-- Every request is made in a state that meets the contract `C`. -/
def Guarded (C : σ → α → Prop) : σ → List α → Prop
  | _, [] => True
  | s, a :: as => C s a ∧ ∀ t o, S.step s a = .ok (t, o) → Guarded C t as

variable {S} {C D : σ → α → Prop} {as : List α} {s : σ} {I : σ → Prop}

/-- **Simulation rule.** -/
theorem run_refines {spec : τ → α → ω → τ → Prop} {R : σ → τ → Prop}
    (hstep : ∀ s m a, R s m → C s a → ∃ t o m', S.step s a = .ok (t, o) ∧ spec m a o m' ∧ R t m')
    {m : τ} (hR : R s m) (hC : S.Guarded C s as) :
    ∃ t os m', S.run s as = .ok (t, os) ∧ SpecRun spec m as os m' ∧ R t m' := by
  induction as generalizing s m with
  | nil => exact ⟨s, [], m, rfl, .nil m, hR⟩
  | cons a as ih =>
    obtain ⟨t, o, m₁, hserve, hspec, hR₁⟩ := hstep s m a hR hC.1
    obtain ⟨u, os, m₂, hrun, hrest, hR₂⟩ := ih hR₁ (hC.2 t o hserve)
    exact ⟨u, o :: os, m₂, by simp [run, hserve, hrun], .cons hspec hrest, hR₂⟩

/-- A service that serves only the requests that meet `C` completes only the runs
that are guarded by `C`. -/
theorem guarded_of_run (hstep : ∀ s a t o, I s → S.step s a = .ok (t, o) → C s a ∧ I t) {s u : σ}
    {os : List ω} (hI : I s) (hrun : S.run s as = .ok (u, os)) : S.Guarded C s as := by
  induction as generalizing s os with
  | nil => trivial
  | cons a as ih =>
    cases hserve : S.step s a with
    | error e => simp [run, hserve] at hrun
    | ok answer =>
      obtain ⟨t, o⟩ := answer
      obtain ⟨hC, hIt⟩ := hstep s a t o hI hserve
      refine ⟨hC, fun t' o' hserve' => ?_⟩
      cases hserve.symm.trans hserve'
      cases hrest : S.run t as with
      | error e => simp [run, hserve, hrest] at hrun
      | ok rest =>
        obtain ⟨u', os'⟩ := rest
        have hu : u' = u := by
          have heq : (u', o :: os') = (u, os) := by simpa [run, hserve, hrest] using hrun
          exact congrArg Prod.fst heq
        exact ih hIt (hu ▸ hrest)

/-- What every request that is served preserves holds at every request. -/
theorem guarded_of_step (hstep : ∀ s a t o, I s → S.step s a = .ok (t, o) → I t) (hI : I s) :
    S.Guarded (fun s _ => I s) s as := by
  induction as generalizing s with
  | nil => trivial
  | cons a as ih => exact ⟨hI, fun t o ht => ih (hstep s a t o hI ht)⟩

/-- Contracts that agree wherever `I` holds, which the requests that meet them preserve, guard the
same runs. -/
theorem guarded_congr (hCD : ∀ s a, I s → (C s a ↔ D s a))
    (hI : ∀ s a t o, I s → D s a → S.step s a = .ok (t, o) → I t) (hs : I s) :
    S.Guarded C s as ↔ S.Guarded D s as := by
  induction as generalizing s with
  | nil => exact Iff.rfl
  | cons a as ih =>
    constructor
    · rintro ⟨hC, hrest⟩
      have hD := (hCD s a hs).mp hC
      exact ⟨hD, fun t o ht => (ih (hI s a t o hs hD ht)).mp (hrest t o ht)⟩
    · rintro ⟨hD, hrest⟩
      exact ⟨(hCD s a hs).mpr hD, fun t o ht => (ih (hI s a t o hs hD ht)).mpr (hrest t o ht)⟩

theorem Guarded.and (hC : S.Guarded C s as) (hD : S.Guarded D s as) :
    S.Guarded (fun s a => C s a ∧ D s a) s as := by
  induction as generalizing s with
  | nil => trivial
  | cons a as ih => exact ⟨⟨hC.1, hD.1⟩, fun t o ht => ih (hC.2 t o ht) (hD.2 t o ht)⟩

end Service

end Transition
