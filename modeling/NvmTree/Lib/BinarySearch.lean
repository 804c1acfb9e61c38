/-
  NvmTree.Lib.BinarySearch — the `while (l <= r)` binary search over a list.

  The loop compares the middle element with what is searched and moves one end
  past it, or stops on it.  `cmp x` tells on which side of the searched value
  `x` lies.

  Main results:
    * `bsearch_eq` — on a list cut into the elements below, equal to (at most
      one) and above, the loop stops right after the elements below, and says
      whether there is an equal one.
    * `bsearch32_eq` — with 32-bit ends, on a list of fewer than 2^30 elements,
      the loop neither overflows nor reads outside the list, it ends, and it
      computes the same.
-/
import Mathlib.Algebra.Group.Int.Defs
import Mathlib.Algebra.Group.Nat.Defs
import Mathlib.Data.List.Basic
import Mathlib.Tactic.Common

namespace BinarySearch

variable {α : Type*}

/-- One run of the loop, for at most `fuel` rounds; returns whether the value
was found, and `m` if it was, `l` if not. -/
def bsearch (cmp : α → Ordering) (xs : List α) : Nat → Int → Int → Bool × Int
  | 0, l, _ => (false, l)
  | fuel + 1, l, r =>
      if l ≤ r then
        let m := (l + r) / 2
        match xs[m.toNat]? with
        | none => (false, l)
        | some x =>
            match cmp x with
            | .lt => bsearch cmp xs fuel (m + 1) r
            | .eq => (true, m)
            | .gt => bsearch cmp xs fuel l (m - 1)
      else (false, l)

/-- The indices `m` the loop reads, in order. -/
def probes (cmp : α → Ordering) (xs : List α) : Nat → Int → Int → List Int
  | 0, _, _ => []
  | fuel + 1, l, r =>
      if l ≤ r then
        let m := (l + r) / 2
        match xs[m.toNat]? with
        | none => [m]
        | some x =>
            match cmp x with
            | .lt => m :: probes cmp xs fuel (m + 1) r
            | .eq => [m]
            | .gt => m :: probes cmp xs fuel l (m - 1)
      else []

variable {cmp : α → Ordering} {lts mid gts : List α}

/-- The loop reads between its two ends. -/
theorem probes_between {xs : List α} : ∀ (fuel : Nat) {l r i : Int}, i ∈ probes cmp xs fuel l r →
    l ≤ i ∧ i ≤ r := by
  intro fuel
  induction fuel with
  | zero => intro l r i hi; cases hi
  | succ fuel ih =>
      intro l r i hi
      unfold probes at hi
      split at hi
      · simp only at hi
        split at hi
        · rw [List.mem_singleton] at hi
          omega
        · split at hi
          · rcases List.mem_cons.1 hi with hi | hi
            · omega
            · have := ih hi
              omega
          · rw [List.mem_singleton] at hi
            omega
          · rcases List.mem_cons.1 hi with hi | hi
            · omega
            · have := ih hi
              omega
      · cases hi

/-- Where the loop stops, found or not. -/
theorem bsearch_between {xs : List α} : ∀ (fuel : Nat) {l r : Int}, l ≤ r + 1 →
    l ≤ (bsearch cmp xs fuel l r).2 ∧ (bsearch cmp xs fuel l r).2 ≤ r + 1
      ∧ ((bsearch cmp xs fuel l r).1 = true → (bsearch cmp xs fuel l r).2 ≤ r) := by
  intro fuel
  induction fuel with
  | zero => intro l r h; exact ⟨Int.le_refl _, h, nofun⟩
  | succ fuel ih =>
      intro l r h
      unfold bsearch
      split
      · simp only
        split
        · exact ⟨Int.le_refl _, h, nofun⟩
        · split
          · obtain ⟨h1, h2, h3⟩ := ih (l := (l + r) / 2 + 1) (r := r) (by omega)
            exact ⟨by omega, h2, h3⟩
          · exact ⟨by simp only; omega, by simp only; omega, fun _ => by simp only; omega⟩
          · obtain ⟨h1, h2, h3⟩ := ih (l := l) (r := (l + r) / 2 - 1) (by omega)
            exact ⟨h1, by omega, fun hf => by have := h3 hf; omega⟩
      · exact ⟨Int.le_refl _, h, nofun⟩

/-- Where an index lies decides how its element compares. -/
theorem cmp_at (hlt : ∀ x ∈ lts, cmp x = .lt) (heq : ∀ x ∈ mid, cmp x = .eq)
    (hgt : ∀ x ∈ gts, cmp x = .gt) {i : Nat} (hi : i < (lts ++ mid ++ gts).length) :
    ∃ x, (lts ++ mid ++ gts)[i]? = some x
      ∧ cmp x = if i < lts.length then .lt
          else if i < lts.length + mid.length then .eq else .gt := by
  refine ⟨(lts ++ mid ++ gts)[i], List.getElem?_eq_getElem hi, ?_⟩
  by_cases h1 : i < lts.length
  · rw [if_pos h1, List.getElem_append_left (by rw [List.length_append]; omega),
      List.getElem_append_left h1]
    exact hlt _ (List.getElem_mem h1)
  · rw [if_neg h1]
    by_cases h2 : i < lts.length + mid.length
    · rw [if_pos h2, List.getElem_append_left (by simpa using h2),
        List.getElem_append_right (by omega)]
      exact heq _ (List.getElem_mem _)
    · rw [if_neg h2, List.getElem_append_right (by simpa using h2)]
      exact hgt _ (List.getElem_mem _)

/-- **The loop is exact.**  The invariant: `l` has not passed the elements
below, and `r` has not dropped under the equal one. -/
theorem bsearch_eq (hlt : ∀ x ∈ lts, cmp x = .lt) (heq : ∀ x ∈ mid, cmp x = .eq)
    (hgt : ∀ x ∈ gts, cmp x = .gt) (hmid : mid.length ≤ 1) :
    ∀ (fuel : Nat) (l r : Int), 0 ≤ l → l ≤ lts.length → (lts.length : Int) + mid.length ≤ r + 1 →
      r + 1 ≤ (lts ++ mid ++ gts).length → r + 1 - l < fuel →
      bsearch cmp (lts ++ mid ++ gts) fuel l r = (decide (mid ≠ []), (lts.length : Int)) := by
  have hne : mid ≠ [] ↔ mid.length = 1 := by
    rw [← List.length_pos_iff]; omega
  intro fuel
  induction fuel with
  | zero => intro l r h0 hl hr hsize hfuel; omega
  | succ fuel ih =>
      intro l r h0 hl hr hsize hfuel
      unfold bsearch
      by_cases hlr : l ≤ r
      · rw [if_pos hlr]
        have hm0 : 0 ≤ (l + r) / 2 := by omega
        have hml : l ≤ (l + r) / 2 := by omega
        have hmr : (l + r) / 2 ≤ r := by omega
        obtain ⟨x, hx, hcmp⟩ := cmp_at hlt heq hgt (i := ((l + r) / 2).toNat) (by omega)
        simp only [hx, hcmp]
        by_cases h1 : ((l + r) / 2).toNat < lts.length
        · rw [if_pos h1]
          exact ih _ _ (by omega) (by omega) hr hsize (by omega)
        · rw [if_neg h1]
          by_cases h2 : ((l + r) / 2).toNat < lts.length + mid.length
          · -- the middle element is the one searched
            rw [if_pos h2]
            have h3 : mid.length = 1 := by omega
            simp only [hne, h3, decide_true, Prod.mk.injEq, true_and]
            omega
          · rw [if_neg h2]
            exact ih _ _ h0 (by omega) (by omega) (by omega) (by omega)
      · rw [if_neg hlr]
        -- the ends have crossed: nothing equal is left
        have hz : mid.length = 0 := by omega
        have hnil : mid = [] := List.length_eq_zero_iff.1 hz
        simp only [hnil, ne_eq, not_true_eq_false, decide_false, Prod.mk.injEq, true_and]
        omega

/-! ## In 32 bits. -/

/-- A result of 32-bit signed arithmetic; `none` is an overflow. -/
def int32 (i : Int) : Option Int := if -2 ^ 31 ≤ i ∧ i < 2 ^ 31 then some i else none

theorem int32_eq {i : Int} (h1 : -2 ^ 31 ≤ i) (h2 : i < 2 ^ 31) : int32 i = some i :=
  if_pos ⟨h1, h2⟩

/-- The loop with 32-bit ends.  `none`: an overflow, a read outside the list, or
more than `fuel` rounds. -/
def bsearch32 (cmp : α → Ordering) (xs : List α) : Nat → Int → Int → Option (Bool × Int)
  | 0, _, _ => none
  | fuel + 1, l, r =>
      if l ≤ r then do
        let m := (← int32 (l + r)) >>> (1 : Nat)
        match if 0 ≤ m then xs[m.toNat]? else none with
        | none => none
        | some x =>
            match cmp x with
            | .lt => bsearch32 cmp xs fuel (← int32 (m + 1)) r
            | .eq => some (true, m)
            | .gt => bsearch32 cmp xs fuel l (← int32 (m - 1))
      else some (false, l)

/-- **No overflow, no stray read, an end.**  The ends stay within the list, so
their sum stays below 2^31. -/
theorem bsearch32_eq {xs : List α} (hsize : xs.length < 2 ^ 30) :
    ∀ (fuel : Nat) (l r : Int), 0 ≤ l → l ≤ r + 1 → r + 1 ≤ xs.length → r + 1 - l < fuel →
      bsearch32 cmp xs fuel l r = some (bsearch cmp xs fuel l r) := by
  intro fuel
  induction fuel with
  | zero => intro l r h0 hl hr hfuel; omega
  | succ fuel ih =>
      intro l r h0 hl hr hfuel
      unfold bsearch32 bsearch
      by_cases hlr : l ≤ r
      · have hm : (l + r) >>> (1 : Nat) = (l + r) / 2 := Int.shiftRight_eq_div_pow (l + r) 1
        have hsum : int32 (l + r) = some (l + r) := int32_eq (by omega) (by omega)
        have hup : int32 ((l + r) / 2 + 1) = some ((l + r) / 2 + 1) :=
          int32_eq (by omega) (by omega)
        have hdown : int32 ((l + r) / 2 - 1) = some ((l + r) / 2 - 1) :=
          int32_eq (by omega) (by omega)
        have hm0 : 0 ≤ (l + r) / 2 := by omega
        obtain ⟨x, hx⟩ : ∃ x, xs[((l + r) / 2).toNat]? = some x :=
          ⟨_, List.getElem?_eq_getElem (by omega)⟩
        simp only [if_pos hlr, hsum, hm, if_pos hm0, hx, hup, hdown, Option.bind_eq_bind,
          Option.bind_some]
        cases cmp x with
        | lt => exact ih _ _ (by omega) (by omega) hr (by omega)
        | eq => rfl
        | gt => exact ih _ _ h0 (by omega) (by omega) (by omega)
      · rw [if_neg hlr, if_neg hlr]

end BinarySearch
