/-
  NvmTree.Lib.ArrayLoops — `for` loops that move elements of an array.

  An array is the memory behind its name, `cells : Nat → α`: what lies past its
  end is there, and a read past the end yields it.  A write past the end is an
  error (`none`).

  Main results:
    * `forUp_shift`, `forDown_shift` — moving a range one place down or up.
    * `forUp_copy` — appending another array.
    * `forUp_both`, `forDown_both` — a loop over two arrays side by side is the
      two loops.
-/
import Mathlib.Data.List.Basic
import Mathlib.Logic.Function.Basic
import Mathlib.Tactic.Common

namespace ArrayLoops

variable {α β σ τ : Type*}

/-! ## §1. Writes and loops. -/

/-- `cells[i] = x`, for an array of `capacity` elements. -/
def put (capacity : Nat) (cells : Nat → α) (i : Nat) (x : α) : Option (Nat → α) :=
  if i < capacity then some (Function.update cells i x) else none

/-- `for (int i = lo; i < lo + n; ++i)`. -/
def forUp (body : Nat → σ → Option σ) : (n lo : Nat) → σ → Option σ
  | 0, _, s => some s
  | n + 1, lo, s => (body lo s).bind (forUp body n (lo + 1))

/-- `for (int i = n - 1; i >= 0; --i)`. -/
def forDown (body : Nat → σ → Option σ) : (n : Nat) → σ → Option σ
  | 0, s => some s
  | n + 1, s => (body n s).bind (forDown body n)

/-- Two bodies in one round, each on its own array. -/
def both (f : Nat → σ → Option σ) (g : Nat → τ → Option τ) (i : Nat) (s : σ × τ) :
    Option (σ × τ) :=
  (f i s.1).bind fun a => (g i s.2).map fun b => (a, b)

theorem put_of_lt {capacity i : Nat} (h : i < capacity) (cells : Nat → α) (x : α) :
    put capacity cells i x = some (Function.update cells i x) := if_pos h

/-! ## §2. Moving elements. -/

variable {capacity : Nat}

/-- `cells[i] = cells[i + 1]`, upwards: what is read has not been written yet. -/
theorem forUp_shift (n : Nat) : ∀ (lo : Nat) (cells : Nat → α), lo + n ≤ capacity →
    forUp (fun i a => put capacity a i (a (i + 1))) n lo cells
      = some (fun j => if lo ≤ j ∧ j < lo + n then cells (j + 1) else cells j) := by
  induction n with
  | zero =>
      intro lo cells _
      show some cells = _
      congr 1
      funext j
      rw [if_neg (by omega)]
  | succ n ih =>
      intro lo cells h
      show (put capacity cells lo (cells (lo + 1))).bind _ = _
      rw [put_of_lt (by omega), Option.bind_some, ih (lo + 1) _ (by omega)]
      congr 1
      funext j
      rcases Nat.lt_trichotomy j lo with hj | rfl | hj
      · rw [if_neg (by omega), if_neg (by omega), Function.update_of_ne (by omega)]
      · rw [if_neg (by omega), if_pos (by omega), Function.update_self]
      · rw [Function.update_of_ne (by omega), Function.update_of_ne (by omega)]
        exact if_congr (by omega) rfl rfl

/-- `cells[i + 1] = cells[i]`, downwards. -/
theorem forDown_shift (n : Nat) : ∀ (cells : Nat → α), (0 < n → n < capacity) →
    forDown (fun i a => put capacity a (i + 1) (a i)) n cells
      = some (fun j => if 0 < j ∧ j ≤ n then cells (j - 1) else cells j) := by
  induction n with
  | zero =>
      intro cells _
      show some cells = _
      congr 1
      funext j
      rw [if_neg (by omega)]
  | succ n ih =>
      intro cells h
      show (put capacity cells (n + 1) (cells n)).bind _ = _
      rw [put_of_lt (h (by omega)), Option.bind_some, ih _ (fun hn => by omega)]
      congr 1
      funext j
      rcases Nat.lt_trichotomy j (n + 1) with hj | rfl | hj
      · rw [Function.update_of_ne (by omega), Function.update_of_ne (by omega)]
        exact if_congr (by omega) rfl rfl
      · rw [if_neg (by omega), if_pos (by omega), Function.update_self]
        rfl
      · rw [if_neg (by omega), if_neg (by omega), Function.update_of_ne (by omega)]

/-- `cells[size + r] = src[r]`, for the first elements of `src`. -/
theorem forUp_copy (src : Nat → α) (size n : Nat) : ∀ (lo : Nat) (cells : Nat → α),
    size + (lo + n) ≤ capacity →
    forUp (fun r a => put capacity a (size + r) (src r)) n lo cells
      = some (fun j => if size + lo ≤ j ∧ j < size + (lo + n) then src (j - size)
          else cells j) := by
  induction n with
  | zero =>
      intro lo cells _
      show some cells = _
      congr 1
      funext j
      rw [if_neg (by omega)]
  | succ n ih =>
      intro lo cells h
      show (put capacity cells (size + lo) (src lo)).bind _ = _
      rw [put_of_lt (by omega), Option.bind_some, ih (lo + 1) _ (by omega)]
      congr 1
      funext j
      rcases Nat.lt_trichotomy j (size + lo) with hj | rfl | hj
      · rw [if_neg (by omega), if_neg (by omega), Function.update_of_ne (by omega)]
      · rw [if_neg (by omega), if_pos (by omega), Function.update_self, Nat.add_sub_cancel_left]
      · rw [Function.update_of_ne (by omega)]
        exact if_congr (by omega) rfl rfl

theorem forUp_both (f : Nat → σ → Option σ) (g : Nat → τ → Option τ) (n : Nat) :
    ∀ (lo : Nat) {a a' : σ} {b b' : τ}, forUp f n lo a = some a' → forUp g n lo b = some b' →
      forUp (both f g) n lo (a, b) = some (a', b') := by
  induction n with
  | zero =>
      intro lo a a' b b' ha hb
      cases ha
      cases hb
      rfl
  | succ n ih =>
      intro lo a a' b b' ha hb
      obtain ⟨a₁, ha₁, ha⟩ := Option.bind_eq_some_iff.1 ha
      obtain ⟨b₁, hb₁, hb⟩ := Option.bind_eq_some_iff.1 hb
      show (both f g lo (a, b)).bind _ = _
      simp only [both, ha₁, hb₁, Option.bind_some, Option.map_some]
      exact ih (lo + 1) ha hb

theorem forDown_both (f : Nat → σ → Option σ) (g : Nat → τ → Option τ) (n : Nat) :
    ∀ {a a' : σ} {b b' : τ}, forDown f n a = some a' → forDown g n b = some b' →
      forDown (both f g) n (a, b) = some (a', b') := by
  induction n with
  | zero =>
      intro a a' b b' ha hb
      cases ha
      cases hb
      rfl
  | succ n ih =>
      intro a a' b b' ha hb
      obtain ⟨a₁, ha₁, ha⟩ := Option.bind_eq_some_iff.1 ha
      obtain ⟨b₁, hb₁, hb⟩ := Option.bind_eq_some_iff.1 hb
      show (both f g n (a, b)).bind _ = _
      simp only [both, ha₁, hb₁, Option.bind_some, Option.map_some]
      exact ih ha hb

/-! ## §3. The elements as a list. -/

/-- `cells[0 .. n)`. -/
def firstN (cells : Nat → α) (n : Nat) : List α := (List.range n).map cells

@[simp] theorem length_firstN (cells : Nat → α) (n : Nat) : (firstN cells n).length = n := by
  simp [firstN]

theorem firstN_congr {cells cells' : Nat → α} {n : Nat} (h : ∀ i < n, cells i = cells' i) :
    firstN cells n = firstN cells' n :=
  List.map_congr_left (fun i hi => h i (List.mem_range.1 hi))

theorem firstN_succ (cells : Nat → α) (n : Nat) :
    firstN cells (n + 1) = firstN cells n ++ [cells n] := by
  simp [firstN, List.range_succ]

theorem firstN_cons (cells : Nat → α) (n : Nat) :
    firstN cells (n + 1) = cells 0 :: firstN (fun i => cells (i + 1)) n := by
  simp [firstN, List.range_succ_eq_map, Function.comp_def]

theorem firstN_add (cells : Nat → α) (n k : Nat) :
    firstN cells (n + k) = firstN cells n ++ firstN (fun i => cells (n + i)) k := by
  simp [firstN, List.range_add, Function.comp_def]

end ArrayLoops
