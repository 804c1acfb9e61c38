/-
  NvmTree.Lib.Drain — systems that run dry.

  `R s a s'` is a step with label `a`, and `P s n` gives states ranks in a well-founded
  order.  If every step lowers the rank, every run from a ranked state is finite.  The
  rank need not be a function of the state, so a proof may carry along what the state does
  not show.  With finitely many labels to choose from in each state the runs are not only
  finite but bounded (König's lemma).

  Main result: `Runs.bounded`.
-/
import Mathlib.Order.WellFounded
import Mathlib.Data.Finset.Lattice.Fold
import Mathlib.Data.Set.Finite.Basic

namespace Drain

variable {σ ι α : Type*}

/-- The labels of a run from one state to another. -/
inductive Runs (R : σ → ι → σ → Prop) : σ → List ι → σ → Prop
  | nil (s : σ) : Runs R s [] s
  | cons {s s₁ s' : σ} {a : ι} {as : List ι} (h : R s a s₁) (hs : Runs R s₁ as s') :
      Runs R s (a :: as) s'

variable {R : σ → ι → σ → Prop} {P : σ → α → Prop} [Preorder α] [WellFoundedLT α]

/-- **Ranks that fall bound the runs.** -/
theorem Runs.bounded
    (hfall : ∀ s n a s', P s n → R s a s' → ∃ n' < n, P s' n')
    (hlabels : ∀ s n, P s n → {a | ∃ s', R s a s'}.Finite)
    (hdet : ∀ s a s₁ s₂, R s a s₁ → R s a s₂ → s₁ = s₂) (n : α) :
    ∀ {s : σ}, P s n → ∃ N, ∀ as s', Runs R s as s' → as.length ≤ N := by
  induction n using WellFoundedLT.induction with
  | _ n ih =>
      intro s hs
      have hfinite := hlabels s n hs
      -- a bound for each first label, if the step is possible
      have hnext : ∀ a, ∃ N, ∀ s₁, R s a s₁ → ∀ as s', Runs R s₁ as s' → as.length ≤ N := by
        intro a
        by_cases hstep : ∃ s₁, R s a s₁
        · obtain ⟨s₁, hstep⟩ := hstep
          obtain ⟨n', hlt, hs₁⟩ := hfall s n a s₁ hs hstep
          obtain ⟨N, hN⟩ := ih n' hlt hs₁
          refine ⟨N, fun s₂ hstep₂ as s' hrun => hN as s' ?_⟩
          rw [hdet s a s₁ s₂ hstep hstep₂]
          exact hrun
        · exact ⟨0, fun s₁ h => absurd ⟨s₁, h⟩ hstep⟩
      choose N hN using hnext
      refine ⟨hfinite.toFinset.sup N + 1, fun as s' hrun => ?_⟩
      cases hrun with
      | nil => exact Nat.zero_le _
      | cons hstep hrest =>
          have hlen := hN _ _ hstep _ _ hrest
          have hsup := Finset.le_sup (f := N) (hfinite.mem_toFinset.2 ⟨_, hstep⟩)
          simp only [List.length_cons]
          omega

end Drain
