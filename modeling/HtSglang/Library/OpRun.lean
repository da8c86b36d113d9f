import Mathlib

/-!
# Runs of operations

A component that is used through operations: each takes a state to a state or fails, and
its callers promise something about the operations they ask for. What is reachable
(`HtSglang.OpSystem.Reaches`) is reached by operations that were promised, did not fail
and meet a condition of one's choice. The one rule is that of invariants
(`HtSglang.OpSystem.Reaches.invariant`); a run on concrete operations is computed by
`HtSglang.OpSystem.run`.
-/

namespace HtSglang

/-- A component used through operations. -/
structure OpSystem (σ ο ε : Type*) where
  /-- One operation. -/
  step : σ → ο → Except ε σ
  /-- What the callers promise. -/
  Permitted : σ → ο → Prop

namespace OpSystem

variable {σ ο ε : Type*} (S : OpSystem σ ο ε)

/-- **Reachability** by permitted operations that all meet a condition. -/
inductive Reaches (guard : σ → ο → Prop) (s₀ : σ) : σ → Prop
  /-- The start. -/
  | refl : Reaches guard s₀ s₀
  /-- One more operation. -/
  | tail {s s' : σ} {op : ο} : Reaches guard s₀ s → S.Permitted s op → guard s op →
      S.step s op = .ok s' → Reaches guard s₀ s'

variable {S} {guard : σ → ο → Prop} {s₀ s : σ}

/-- **The invariant rule.** -/
theorem Reaches.invariant {I : σ → Prop} (h : S.Reaches guard s₀ s) (hinit : I s₀)
    (hstep : ∀ s op s', I s → S.Permitted s op → guard s op → S.step s op = .ok s' → I s') :
    I s := by
  induction h with
  | refl => exact hinit
  | tail _ hperm hguard hok ih => exact hstep _ _ _ ih hperm hguard hok

variable (S guard)

/-- A run on concrete operations; nothing when one of them is not permitted, does not meet
the condition, or fails. -/
def run [∀ s op, Decidable (S.Permitted s op)] [∀ s op, Decidable (guard s op)] :
    σ → List ο → Option σ
  | s, [] => some s
  | s, op :: ops =>
    if S.Permitted s op ∧ guard s op then
      match S.step s op with
      | .ok s' => run s' ops
      | .error _ => none
    else none

variable {S guard}

/-- What a run reaches is reachable. -/
theorem Reaches.of_run [∀ s op, Decidable (S.Permitted s op)] [∀ s op, Decidable (guard s op)]
    {ops : List ο} {s' : σ} (h : S.Reaches guard s₀ s) (hrun : S.run guard s ops = some s') :
    S.Reaches guard s₀ s' := by
  induction ops generalizing s with
  | nil =>
    rw [run, Option.some.injEq] at hrun
    exact hrun ▸ h
  | cons op ops ih =>
    rw [run] at hrun
    split at hrun
    · next hperm =>
      split at hrun
      · next s₁ hok => exact ih (h.tail hperm.1 hperm.2 hok) hrun
      · cases hrun
    · cases hrun

end OpSystem

end HtSglang
