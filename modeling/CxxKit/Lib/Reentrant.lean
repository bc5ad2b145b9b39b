import CxxKit.Lib.Transition

/-!
Programs that call back.

The functions of such a program call user code, and user code may call the
program again before it returns.  A configuration is the program's store with a
control stack of frames: a `callback` frame is user code in control, a `rest`
frame is what is left of a function once the frames above it are gone.  User
code calls or returns, an interrupted function is resumed with an answer of its
environment, and events arrive only when the stack is empty.
-/

namespace Reentrant

open Transition

/-- One frame of the control stack. -/
inductive Frame (κ : Type*) where
  | callback
  | rest (k : κ)
  deriving DecidableEq, Repr

/-- The store with the control stack, innermost frame first. -/
structure Config (σ κ : Type*) where
  store : σ
  todo : List (Frame κ)

inductive Label (χ ρ ε : Type*) where
  | call (c : χ)
  | ret
  | resume (answer : ρ)
  | event (e : ε)

/-- What a function leaves behind when it reaches its first callback or ends:
the store, and the frames it pushes. -/
abbrev Outcome (σ κ : Type*) := σ × List (Frame κ)

/-- A program: what a call, a resumed function and an event do.  `none` is a
step that is not enabled or that the program does not survive. -/
structure Program (σ κ χ ρ ε : Type*) where
  init : σ
  call : σ → χ → Option (Outcome σ κ)
  resume : σ → κ → ρ → Option (Outcome σ κ)
  event : σ → ε → Option (Outcome σ κ)

variable {σ κ χ ρ ε : Type*}

section

variable (r : Outcome σ κ)

/-- The function goes on as `k` once the callbacks of `r` have returned. -/
def Outcome.andThen (k : κ) : Outcome σ κ :=
  (r.1, r.2 ++ [.rest k])

@[simp] theorem Outcome.andThen_fst (k : κ) : (r.andThen k).1 = r.1 := rfl

@[simp] theorem Outcome.andThen_snd (k : κ) : (r.andThen k).2 = r.2 ++ [.rest k] := rfl

/-- `I` holds of the store and of the stack with the frames pushed. -/
abbrev Outcome.Leaves (I : σ → List (Frame κ) → Prop) (todo : List (Frame κ)) : Prop :=
  I r.1 (r.2 ++ todo)

theorem Outcome.leaves_andThen {r : Outcome σ κ} {k : κ} {I : σ → List (Frame κ) → Prop}
    {todo : List (Frame κ)} : (r.andThen k).Leaves I todo ↔ r.Leaves I (.rest k :: todo) := by
  simp [Leaves]

def Outcome.over (todo : List (Frame κ)) : Config σ κ :=
  ⟨r.1, r.2 ++ todo⟩

end

/-- The interrupted function that control is to return to. -/
def topRest : List (Frame κ) → Option κ
  | [] => none
  | .callback :: todo => topRest todo
  | .rest k :: _ => some k

namespace Program

variable (P : Program σ κ χ ρ ε)

def step (c : Config σ κ) : Label χ ρ ε → Option (Config σ κ)
  | .call a => match c.todo with
    | .rest _ :: _ => none
    | _ => (P.call c.store a).map fun r => r.over c.todo
  | .ret => match c.todo with
    | .callback :: todo => some ⟨c.store, todo⟩
    | _ => none
  | .resume answer => match c.todo with
    | .rest k :: todo => (P.resume c.store k answer).map fun r => r.over todo
    | _ => none
  | .event e => match c.todo with
    | [] => (P.event c.store e).map fun r => r.over []
    | _ => none

/-- The machine of a program, from an empty stack. -/
def machine : Machine (Config σ κ) (Label χ ρ ε) where
  init := ⟨P.init, []⟩
  step := P.step

/-- What the step function does, label by label. -/
inductive Effect : Config σ κ → Label χ ρ ε → Config σ κ → Prop
  | call (s : σ) (todo : List (Frame κ)) (a : χ) (r : Outcome σ κ)
      (htop : ∀ k rest, todo ≠ .rest k :: rest) (hcall : P.call s a = some r) :
      Effect ⟨s, todo⟩ (.call a) ⟨r.1, r.2 ++ todo⟩
  | ret (s : σ) (todo : List (Frame κ)) : Effect ⟨s, .callback :: todo⟩ .ret ⟨s, todo⟩
  | resume (s : σ) (k : κ) (todo : List (Frame κ)) (answer : ρ) (r : Outcome σ κ)
      (hresume : P.resume s k answer = some r) :
      Effect ⟨s, .rest k :: todo⟩ (.resume answer) ⟨r.1, r.2 ++ todo⟩
  | event (s : σ) (e : ε) (r : Outcome σ κ) (hevent : P.event s e = some r) :
      Effect ⟨s, []⟩ (.event e) ⟨r.1, r.2⟩

variable {P} {I : σ → List (Frame κ) → Prop} {c d : Config σ κ} {a : Label χ ρ ε}

theorem step_effect (h : P.step c a = some d) : P.Effect c a d := by
  obtain ⟨s, todo⟩ := c
  cases a with
  | call a =>
    unfold step at h
    dsimp only at h
    split at h
    · cases h
    next hnot =>
      obtain ⟨r, hr, rfl⟩ := Option.map_eq_some_iff.mp h
      exact .call s todo a r hnot hr
  | ret =>
    unfold step at h
    dsimp only at h
    split at h
    · cases h
      exact .ret s _
    · cases h
  | resume answer =>
    unfold step at h
    dsimp only at h
    split at h
    · obtain ⟨r, hr, rfl⟩ := Option.map_eq_some_iff.mp h
      exact .resume s _ _ answer r hr
    · cases h
  | event e =>
    unfold step at h
    dsimp only at h
    split at h
    · obtain ⟨r, hr, rfl⟩ := Option.map_eq_some_iff.mp h
      rw [Outcome.over, List.append_nil]
      exact .event s e r hr
    · cases h

/-- `I` is kept by every call, return, resumption and event. -/
structure Keeps (P : Program σ κ χ ρ ε) (I : σ → List (Frame κ) → Prop) : Prop where
  call : ∀ s todo a r, I s todo → P.call s a = some r → I r.1 (r.2 ++ todo)
  ret : ∀ s todo, I s (.callback :: todo) → I s todo
  resume : ∀ s k todo answer r, I s (.rest k :: todo) → P.resume s k answer = some r →
    I r.1 (r.2 ++ todo)
  event : ∀ s e r, I s [] → P.event s e = some r → I r.1 r.2

theorem Keeps.step (h : P.Keeps I) (hc : I c.store c.todo) (hstep : P.step c a = some d) :
    I d.store d.todo := by
  cases step_effect hstep with
  | call s todo a r _ hcall => exact h.call s todo a r hc hcall
  | ret s todo => exact h.ret s todo hc
  | resume s k todo answer r hresume => exact h.resume s k todo answer r hc hresume
  | event s e r hevent => exact h.event s e r hc hevent

/-- **Invariant rule for programs that call back.** -/
theorem Keeps.always (h : P.Keeps I) (hinit : I P.init []) (as : List (Label χ ρ ε)) :
    P.machine.Always (fun c => I c.store c.todo) P.machine.init as :=
  Machine.always_of_step (fun _ _ _ hc hstep => h.step hc hstep) hinit as

end Program

end Reentrant
