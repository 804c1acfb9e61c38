/-
  NvmTree.RangeTree.Entries — sorted association lists: where a key belongs,
  setting a key, removing a key.

  Main results:
    * `SortedKeys.locate` — a key cuts a sorted list into the entries below,
      the entry of the key if there is one, and the entries above.
    * `mem_setEntry` / `mem_eraseEntry` — what the updated list holds.
    * `setEntry_eq` / `eraseEntry_eq` — the updates, written at the place where
      the key belongs.
-/
import NvmTree.RangeTree.Basic

namespace RangeTree

variable {K β : Type*} [LinearOrder K]

/-! ## §1. Where a key belongs. -/

/-- The entries below `k`, the entry of `k` (at most one), the entries above. -/
theorem SortedKeys.locate {l : List (K × β)} (h : SortedKeys l) (k : K) :
    ∃ lts mid gts, l = lts ++ mid ++ gts ∧ (∀ e ∈ lts, e.1 < k) ∧ (∀ e ∈ mid, e.1 = k)
      ∧ (∀ e ∈ gts, k < e.1) ∧ mid.length ≤ 1 := by
  induction l with
  | nil => exact ⟨[], [], [], rfl, by simp, by simp, by simp, by simp⟩
  | cons x l ih =>
      rw [sortedKeys_cons] at h
      rcases lt_trichotomy x.1 k with hlt | heq | hgt
      · obtain ⟨lts, mid, gts, rfl, h1, h2, h3, h4⟩ := ih h.2
        refine ⟨x :: lts, mid, gts, rfl, ?_, h2, h3, h4⟩
        intro e he
        rcases List.mem_cons.1 he with rfl | he
        · exact hlt
        · exact h1 e he
      · refine ⟨[], [x], l, rfl, by simp, by simp [heq], ?_, by simp⟩
        intro e he
        rw [← heq]; exact h.1 e he
      · refine ⟨[], [], x :: l, rfl, by simp, by simp, ?_, by simp⟩
        intro e he
        rcases List.mem_cons.1 he with rfl | he
        · exact hgt
        · exact hgt.trans (h.1 e he)

/-- A list of at most one element is empty or a singleton. -/
theorem eq_nil_or_singleton {α : Type*} {l : List α} (h : l.length ≤ 1) :
    l = [] ∨ ∃ x, l = [x] := by
  cases l with
  | nil => exact Or.inl rfl
  | cons x l =>
      cases l with
      | nil => exact Or.inr ⟨x, rfl⟩
      | cons y l => simp at h

/-! ## §2. Setting and removing a key. -/

/-- `l` with `k` bound to `v`. -/
def setEntry (k : K) (v : β) (l : List (K × β)) : List (K × β) :=
  l.filter (fun e => decide (e.1 < k)) ++ (k, v) :: l.filter (fun e => decide (k < e.1))

/-- `l` without `k`. -/
def eraseEntry (k : K) (l : List (K × β)) : List (K × β) :=
  l.filter (fun e => decide (e.1 ≠ k))

theorem mem_setEntry {k : K} {v : β} {l : List (K × β)} {e : K × β} :
    e ∈ setEntry k v l ↔ e = (k, v) ∨ (e.1 ≠ k ∧ e ∈ l) := by
  unfold setEntry
  simp only [List.mem_append, List.mem_cons, List.mem_filter, decide_eq_true_eq, ne_eq]
  constructor
  · rintro (⟨hm, hlt⟩ | rfl | ⟨hm, hlt⟩)
    · exact Or.inr ⟨hlt.ne, hm⟩
    · exact Or.inl rfl
    · exact Or.inr ⟨hlt.ne', hm⟩
  · rintro (rfl | ⟨hne, hm⟩)
    · exact Or.inr (Or.inl rfl)
    · rcases lt_or_gt_of_ne hne with hlt | hgt
      · exact Or.inl ⟨hm, hlt⟩
      · exact Or.inr (Or.inr ⟨hm, hgt⟩)

theorem mem_eraseEntry {k : K} {l : List (K × β)} {e : K × β} :
    e ∈ eraseEntry k l ↔ e.1 ≠ k ∧ e ∈ l := by
  unfold eraseEntry
  simp only [List.mem_filter, decide_eq_true_eq]
  exact and_comm

theorem SortedKeys.filter {l : List (K × β)} (h : SortedKeys l) (p : K × β → Bool) :
    SortedKeys (l.filter p) := List.Pairwise.filter p h

theorem SortedKeys.setEntry {l : List (K × β)} (h : SortedKeys l) (k : K) (v : β) :
    SortedKeys (setEntry k v l) := by
  unfold RangeTree.setEntry
  rw [sortedKeys_append, sortedKeys_cons]
  refine ⟨h.filter _, ⟨?_, h.filter _⟩, ?_⟩
  · intro e he
    simpa using (List.mem_filter.1 he).2
  · intro x hx y hy
    have hxk : x.1 < k := by simpa using (List.mem_filter.1 hx).2
    rcases List.mem_cons.1 hy with rfl | hy
    · exact hxk
    · exact hxk.trans (by simpa using (List.mem_filter.1 hy).2)

theorem SortedKeys.eraseEntry {l : List (K × β)} (h : SortedKeys l) (k : K) :
    SortedKeys (eraseEntry k l) := h.filter _

/-- Filtering a cut list by one side keeps that side. -/
theorem filter_cut {k : K} {lts mid gts : List (K × β)} (h1 : ∀ e ∈ lts, e.1 < k)
    (h2 : ∀ e ∈ mid, e.1 = k) (h3 : ∀ e ∈ gts, k < e.1) :
    (lts ++ mid ++ gts).filter (fun e => decide (e.1 < k)) = lts
      ∧ (lts ++ mid ++ gts).filter (fun e => decide (k < e.1)) = gts
      ∧ (lts ++ mid ++ gts).filter (fun e => decide (e.1 ≠ k)) = lts ++ gts := by
  have e1 : ∀ {p : K × β → Bool} {l : List (K × β)}, (∀ e ∈ l, p e = true) → l.filter p = l :=
    fun h => List.filter_eq_self.2 h
  have e2 : ∀ {p : K × β → Bool} {l : List (K × β)}, (∀ e ∈ l, p e = false) → l.filter p = [] :=
    fun h => List.filter_eq_nil_iff.2 (by simpa using h)
  simp only [List.filter_append]
  refine ⟨?_, ?_, ?_⟩
  · rw [e1 (fun e he => by simpa using h1 e he), e2 (fun e he => by simp [h2 e he]),
      e2 (fun e he => by simpa using (h3 e he).le)]
    simp
  · rw [e2 (fun e he => by simpa using (h1 e he).le), e2 (fun e he => by simp [h2 e he]),
      e1 (fun e he => by simpa using h3 e he)]
    simp
  · rw [e1 (fun e he => by simpa using (h1 e he).ne), e2 (fun e he => by simp [h2 e he]),
      e1 (fun e he => by simpa using (h3 e he).ne')]
    simp

theorem setEntry_eq {k : K} {v : β} {lts mid gts : List (K × β)} (h1 : ∀ e ∈ lts, e.1 < k)
    (h2 : ∀ e ∈ mid, e.1 = k) (h3 : ∀ e ∈ gts, k < e.1) :
    setEntry k v (lts ++ mid ++ gts) = lts ++ (k, v) :: gts := by
  obtain ⟨e1, e2, -⟩ := filter_cut h1 h2 h3
  unfold setEntry
  rw [e1, e2]

theorem eraseEntry_eq {k : K} {lts mid gts : List (K × β)} (h1 : ∀ e ∈ lts, e.1 < k)
    (h2 : ∀ e ∈ mid, e.1 = k) (h3 : ∀ e ∈ gts, k < e.1) :
    eraseEntry k (lts ++ mid ++ gts) = lts ++ gts := (filter_cut h1 h2 h3).2.2

end RangeTree
