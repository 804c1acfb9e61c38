/-
  NvmTree.Lib.Hoare — pre- and postconditions of programs that may stop.

  A program reads and changes a state, and ends with a value or stops for a
  reason.  `Triple allowed P x Q`: from every state with `P`, the program `x` ends
  in a state with `Q`, or stops for a reason that is allowed.

  The rules are those of a Hoare logic: `pure`, `bind`, `consequence`, and one
  for each way to branch.
-/
import Mathlib.Tactic.Common

namespace Hoare

variable {σ ε α β : Type}

/-- Programs over the state `σ` that may stop with an `ε`. -/
abbrev Prog (σ ε α : Type) := StateT σ (Except ε) α

def Triple (allowed : ε → Prop) (P : σ → Prop) (x : Prog σ ε α) (Q : α → σ → Prop) : Prop :=
  ∀ s, P s → match x s with
    | .ok (a, s') => Q a s'
    | .error e => allowed e

variable {allowed : ε → Prop} {P P' : σ → Prop} {x : Prog σ ε α} {Q Q' : α → σ → Prop}

theorem pure_rule {a : α} (h : ∀ s, P s → Q a s) :
    Triple allowed P (pure a : Prog σ ε α) Q := h

theorem throw_rule {e : ε} (h : allowed e) :
    Triple allowed P (throw e : Prog σ ε α) Q := fun _ _ => h

theorem bind_rule {R : β → σ → Prop} {f : α → Prog σ ε β} (hx : Triple allowed P x Q)
    (hf : ∀ a, Triple allowed (Q a) (f a) R) : Triple allowed P (x >>= f) R := by
  intro s hs
  have h := hx s hs
  have hbind : (x >>= f) s = (x s).bind (fun p => f p.1 p.2) := rfl
  rw [hbind]
  match hxs : x s with
  | .error e =>
      rw [hxs] at h
      exact h
  | .ok (a, s') =>
      rw [hxs] at h
      exact hf a s' h

theorem consequence (h : Triple allowed P x Q) (hP : ∀ s, P' s → P s)
    (hQ : ∀ a s, Q a s → Q' a s) : Triple allowed P' x Q' := by
  intro s hs
  have hrun := h s (hP s hs)
  match hxs : x s with
  | .error e =>
      rw [hxs] at hrun
      exact hrun
  | .ok (a, s') =>
      rw [hxs] at hrun
      exact hQ a s' hrun

theorem ite_rule {c : Prop} [Decidable c] {y : Prog σ ε α}
    (ht : c → Triple allowed P x Q) (hf : ¬ c → Triple allowed P y Q) :
    Triple allowed P (if c then x else y) Q := by
  by_cases hc : c
  · rw [if_pos hc]
    exact ht hc
  · rw [if_neg hc]
    exact hf hc

/-- What holds of the value alone may be used outside. -/
theorem of_and {p : Prop} (h : p → Triple allowed P x Q) :
    Triple allowed (fun s => p ∧ P s) x Q := fun s hs => h hs.1 s hs.2

end Hoare
