/-
  NvmTree.Lib.ListSplit — one place of a list, and the list around it.

  Queues of pending work are lists from which the environment picks a place.
  `exists_split` names the two sides of that place once, and turns reading,
  replacing and removing there into plain appends.  The `_at` lemmas go the
  other way: the place is named by the list in front of it.
-/
import Mathlib.Data.List.Basic

namespace ListSplit

variable {α : Type*}

/-- A place of a list cuts it in two; replacing or removing what stands there
keeps both sides. -/
theorem exists_split {l : List α} {i : Nat} {x : α} (h : l[i]? = some x) :
    ∃ pre post, l = pre ++ x :: post ∧ l.eraseIdx i = pre ++ post
      ∧ ∀ y, l.set i y = pre ++ y :: post := by
  induction l generalizing i with
  | nil => simp at h
  | cons z l ih =>
      cases i with
      | zero =>
          have hz : z = x := by simpa using h
          subst hz
          exact ⟨[], l, rfl, rfl, fun y => rfl⟩
      | succ i =>
          obtain ⟨pre, post, h1, h2, h3⟩ := ih (i := i) (by simpa using h)
          refine ⟨z :: pre, post, ?_, ?_, ?_⟩
          · rw [h1]; rfl
          · rw [List.eraseIdx_cons_succ, h2]; rfl
          · intro y
            rw [List.set_cons_succ, h3 y]; rfl

variable {pre post : List α} {x : α}

theorem getElem?_at : (pre ++ x :: post)[pre.length]? = some x := by
  simp

theorem insertIdx_at : (pre ++ post).insertIdx pre.length x = pre ++ x :: post := by
  induction pre with
  | nil => simp
  | cons y pre ih => simp [ih]

theorem modify_at {f : α → α} :
    (pre ++ x :: post).modify pre.length f = pre ++ f x :: post := by
  induction pre with
  | nil => simp
  | cons y pre ih => simp [ih]

theorem eraseIdx_at : (pre ++ x :: post).eraseIdx pre.length = pre ++ post := by
  induction pre with
  | nil => simp
  | cons y pre ih => simp [ih]

/-- An element that differs from all others in `f`, apart from the others. -/
theorem perm_apart {κ : Type*} [DecidableEq κ] {f : α → κ} {l : List α}
    (hnodup : (l.map f).Nodup) (hx : x ∈ l) : l.Perm (x :: l.filter (fun y => f y ≠ f x)) := by
  obtain ⟨pre, post, rfl⟩ := List.append_of_mem hx
  rw [List.map_append, List.map_cons, List.nodup_append, List.nodup_cons] at hnodup
  obtain ⟨-, ⟨hpost, -⟩, hpre⟩ := hnodup
  have hpre' : ∀ y ∈ pre, f y ≠ f x := fun y hy =>
    hpre (f y) (List.mem_map_of_mem hy) (f x) List.mem_cons_self
  have hpost' : ∀ y ∈ post, f y ≠ f x := fun y hy heq => hpost (heq ▸ List.mem_map_of_mem hy)
  rw [List.filter_append, List.filter_cons_of_neg (by simp),
    List.filter_eq_self.2 (by simpa using hpre'), List.filter_eq_self.2 (by simpa using hpost')]
  exact List.perm_middle

end ListSplit
