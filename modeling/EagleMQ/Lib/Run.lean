import Mathlib.Tactic.Common

/-! Runs of a machine whose step is a function that may fail. The actions that
may be taken are a parameter, so that a condition on the steps of a run is the
same notion as the guard of an action. -/

namespace EagleMQ

/-- The states that a run reaches from a start by actions that are `allowed`. -/
inductive Run {σ α ε : Type} (allowed : σ → α → Prop) (next : σ → α → Except ε σ) (start : σ) :
    σ → Prop
  | refl : Run allowed next start start
  | step {s t : σ} (a : α) (run : Run allowed next start s) (ha : allowed s a)
      (hn : next s a = .ok t) : Run allowed next start t

namespace Run

variable {σ α ε : Type} {allowed allowed' : σ → α → Prop} {next : σ → α → Except ε σ} {s t u : σ}

theorem invariant (I : σ → Prop) (h0 : I s)
    (hstep : ∀ u a v, I u → allowed u a → next u a = .ok v → I v) (h : Run allowed next s t) :
    I t := by
  induction h with
  | refl => exact h0
  | step a _ ha hn ih => exact hstep _ a _ ih ha hn

theorem mono (hmono : ∀ s a, allowed s a → allowed' s a) (h : Run allowed next s t) :
    Run allowed' next s t := by
  induction h with
  | refl => exact .refl
  | step a _ ha hn ih => exact .step a ih (hmono _ a ha) hn

theorem trans (h : Run allowed next s t) (h' : Run allowed next t u) : Run allowed next s u := by
  induction h' with
  | refl => exact h
  | step a _ ha hn ih => exact .step a ih ha hn

theorem single (a : α) (ha : allowed s a) (hn : next s a = .ok t) : Run allowed next s t :=
  .step a .refl ha hn

end Run

end EagleMQ
