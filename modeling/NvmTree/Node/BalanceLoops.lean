/-
  NvmTree.Node.BalanceLoops — `balance` on the arrays of two neighbours.

  `LeafNode::balance` and `InnerNode::balance` are written out separately: they
  shift with loops in either direction and with different bounds.  Here both run
  as written on `entries_`, and on `key_` and `child_rep_`, with the memory past
  the arrays arbitrary; they compute `balanceEntries`, which is what
  `LeafNode.balance` and `InnerNode.balance` are made of.

  The loops of the inner node go one element further than those of the leaf.
  When it borrows from the right, the last round reads `key_[right->size_]`,
  which lies behind the array when the right node is full; what it reads ends
  behind the new `size_`, so the contents do not depend on it.

  Main result:
    * `balance_redistributes` — no write leaves the arrays, the entries of the
      two nodes together stay the same, and either one entry has moved or the
      left node has them all.
-/
import NvmTree.Node.Inner
import NvmTree.Lib.ArrayLoops

namespace NvmTree

open ArrayLoops

/-! ## §1. The loops. -/

/-- `a[i] = a[i + 1]`. -/
def moveDown {α : Type*} (capacity : Nat) (i : Nat) (a : Nat → α) : Option (Nat → α) :=
  put capacity a i (a (i + 1))

/-- `a[i + 1] = a[i]`. -/
def moveUp {α : Type*} (capacity : Nat) (i : Nat) (a : Nat → α) : Option (Nat → α) :=
  put capacity a (i + 1) (a i)

/-- A leaf's arrays and what `balance` changes besides. -/
structure LeafArrays (K V : Type*) where
  size : Nat
  entries : Nat → K × V
  rightSibling : Option BlkAddress
  modified : Bool

/-- An inner node's arrays; the cached `child_` references are left out. -/
structure InnerArrays (K A : Type*) where
  size : Nat
  key : Nat → K
  childRep : Nat → A
  modified : Bool

/-- `LeafNode::balance`: the two nodes, and the boundary if it returns `false`. -/
def LeafArrays.balance {K V : Type*} (capacity : Nat) (left right : LeafArrays K V) :
    Option (LeafArrays K V × LeafArrays K V × Option K) :=
  let underflow_bound := underflowBound capacity
  if left.size < underflow_bound ∧ underflow_bound < right.size then
    -- borrow an entry from the right sibling, and close the gap
    (put capacity left.entries left.size (right.entries 0)).bind fun l =>
    (forUp (moveDown capacity) (right.size - 1) 0 right.entries).bind fun r =>
    some ({ left with entries := l, size := left.size + 1, modified := true },
      { right with entries := r, size := right.size - 1, modified := true }, some (r 0).1)
  else if right.size < underflow_bound ∧ underflow_bound < left.size then
    -- make space for the entry borrowed from the left
    (forDown (moveUp capacity) right.size right.entries).bind fun r =>
    (put capacity r 0 (left.entries (left.size - 1))).bind fun r =>
    some ({ left with size := left.size - 1, modified := true },
      { right with entries := r, size := right.size + 1, modified := true }, some (r 0).1)
  else
    (forUp (fun r a => put capacity a (left.size + r) (right.entries r)) right.size 0
      left.entries).bind fun l =>
    some ({ left with entries := l, size := left.size + right.size,
                      rightSibling := right.rightSibling, modified := true },
      { right with size := 0, modified := true }, none)

/-- `InnerNode::balance`; `noRep` is the -1 left in a vacated `child_rep_`. -/
def InnerArrays.balance {K A : Type*} (capacity : Nat) (noRep : A) (left right : InnerArrays K A) :
    Option (InnerArrays K A × InnerArrays K A × Option K) :=
  let underflow_bound := underflowBound capacity
  if left.size < underflow_bound ∧ underflow_bound < right.size then
    (put capacity left.key left.size (right.key 0)).bind fun key =>
    (put capacity left.childRep left.size (right.childRep 0)).bind fun childRep =>
    -- up to `right->size_`, not to the element before
    (forUp (both (moveDown capacity) (moveDown capacity)) right.size 0
      (right.key, right.childRep)).bind fun r =>
    some (⟨left.size + 1, key, childRep, true⟩, ⟨right.size - 1, r.1, r.2, true⟩, some (r.1 0))
  else if right.size < underflow_bound ∧ underflow_bound < left.size then
    -- down from `right->size_`
    (forDown (both (moveUp capacity) (moveUp capacity)) (right.size + 1)
      (right.key, right.childRep)).bind fun r =>
    (put capacity r.1 0 (left.key (left.size - 1))).bind fun key =>
    (put capacity r.2 0 (left.childRep (left.size - 1))).bind fun childRep =>
    (put capacity left.childRep (left.size - 1) noRep).bind fun vacated =>
    some (⟨left.size - 1, left.key, vacated, true⟩, ⟨right.size + 1, key, childRep, true⟩,
      some (key 0))
  else
    (forUp (both (fun r a => put capacity a (left.size + r) (right.key r))
      (fun r a => put capacity a (left.size + r) (right.childRep r))) right.size 0
      (left.key, left.childRep)).bind fun l =>
    some (⟨left.size + right.size, l.1, l.2, true⟩, ⟨0, right.key, right.childRep, true⟩, none)

def LeafArrays.contents {K V : Type*} (n : LeafArrays K V) : List (K × V) := firstN n.entries n.size

def InnerArrays.contents {K A : Type*} (n : InnerArrays K A) : List (K × A) :=
  firstN (fun i => (n.key i, n.childRep i)) n.size

/-! ## §2. They compute `balanceEntries`. -/

section Contents

variable {α : Type*} {cells : Nat → α} {n : Nat}

/-- The memory after `rounds` rounds of `moveDown` from 0 upwards. -/
def movedDown (cells : Nat → α) (rounds : Nat) : Nat → α :=
  fun j => if 0 ≤ j ∧ j < 0 + rounds then cells (j + 1) else cells j

/-- The memory after `rounds` rounds of `moveUp` down to 0. -/
def movedUp (cells : Nat → α) (rounds : Nat) : Nat → α :=
  fun j => if 0 < j ∧ j ≤ rounds then cells (j - 1) else cells j

/-- The memory after `k` elements of `src` were copied behind the first `n`. -/
def copied (cells src : Nat → α) (n k : Nat) : Nat → α :=
  fun j => if n + 0 ≤ j ∧ j < n + (0 + k) then src (j - n) else cells j

theorem firstN_push (cells : Nat → α) (n : Nat) (x : α) :
    firstN (Function.update cells n x) (n + 1) = firstN cells n ++ [x] := by
  rw [firstN_succ, Function.update_self,
    firstN_congr (fun i hi => Function.update_of_ne (Nat.ne_of_lt hi) x cells)]

theorem firstN_movedDown {rounds : Nat} (h : n ≤ rounds) :
    firstN (movedDown cells rounds) n = firstN (fun i => cells (i + 1)) n :=
  firstN_congr (fun i hi => if_pos ⟨Nat.zero_le i, by omega⟩)

theorem firstN_movedUp {rounds : Nat} (h : n ≤ rounds) (x : α) :
    firstN (Function.update (movedUp cells rounds) 0 x) (n + 1) = x :: firstN cells n := by
  rw [firstN_cons, Function.update_self]
  congr 1
  refine firstN_congr (fun i hi => ?_)
  rw [Function.update_of_ne (Nat.succ_ne_zero i)]
  exact if_pos ⟨Nat.succ_pos i, by omega⟩

theorem firstN_copied (src : Nat → α) (k : Nat) :
    firstN (copied cells src n k) (n + k) = firstN cells n ++ firstN src k := by
  unfold copied
  rw [firstN_add, firstN_congr (fun i hi => if_neg (by omega))]
  congr 1
  refine firstN_congr (fun i hi => ?_)
  rw [if_pos (by omega), Nat.add_sub_cancel_left]

end Contents

section Entries

variable {K β : Type*} {capacity n k rounds : Nat} {a b : Nat → K × β}

/-- An entry is borrowed from the right. -/
theorem balanceEntries_right (h : n < underflowBound capacity ∧ underflowBound capacity < k + 1)
    (hk : k ≤ rounds) :
    balanceEntries capacity (firstN a n) (firstN b (k + 1))
      = (firstN (Function.update a n (b 0)) (n + 1), firstN (movedDown b rounds) k,
          some (movedDown b rounds 0).1) := by
  -- the right node keeps an entry, so the boundary is there
  obtain ⟨k, rfl⟩ : ∃ k', k = k' + 1 := ⟨k - 1, by omega⟩
  have hlen : (firstN a n).length < underflowBound capacity
      ∧ underflowBound capacity < (b 0 :: firstN (fun i => b (i + 1)) (k + 1)).length := by
    simpa using h
  rw [firstN_push, firstN_movedDown hk, firstN_cons b]
  simp only [balanceEntries, hlen, and_self, decide_true]
  rw [firstN_cons]
  have h0 : movedDown b rounds 0 = b 1 := if_pos ⟨Nat.le_refl 0, by omega⟩
  rw [h0]
  rfl

/-- An entry is borrowed from the left. -/
theorem balanceEntries_left (h : k < underflowBound capacity ∧ underflowBound capacity < n + 1)
    (hk : k ≤ rounds) :
    balanceEntries capacity (firstN a (n + 1)) (firstN b k)
      = (firstN a n, firstN (Function.update (movedUp b rounds) 0 (a n)) (k + 1),
          some (a n).1) := by
  have hlen : (firstN b k).length < underflowBound capacity
      ∧ underflowBound capacity < (firstN a n ++ [a n]).length := by
    simpa using h
  have hlen' : ¬ ((firstN a n ++ [a n]).length < underflowBound capacity
      ∧ underflowBound capacity < (firstN b k).length) := by omega
  rw [firstN_movedUp hk, firstN_succ]
  simp only [balanceEntries, hlen, hlen', and_self, decide_true, decide_false,
    List.getLast?_concat, List.dropLast_concat]

/-- The nodes are merged. -/
theorem balanceEntries_merge (h : ¬ (n < underflowBound capacity ∧ underflowBound capacity < k))
    (h' : ¬ (k < underflowBound capacity ∧ underflowBound capacity < n)) :
    balanceEntries capacity (firstN a n) (firstN b k)
      = (firstN (copied a b n k) (n + k), firstN b 0, none) := by
  rw [firstN_copied]
  simp only [balanceEntries, length_firstN, h, h', decide_false]
  rfl

end Entries

section Pairs

variable {α β : Type*} (cells : Nat → α) (cells' : Nat → β)

/-- Two arrays written alike are one array of pairs. -/
theorem pair_update (i : Nat) (x : α) (y : β) :
    (fun j => (Function.update cells i x j, Function.update cells' i y j))
      = Function.update (fun j => (cells j, cells' j)) i (x, y) := by
  funext j
  rcases eq_or_ne j i with rfl | hj
  · rw [Function.update_self, Function.update_self, Function.update_self]
  · rw [Function.update_of_ne hj, Function.update_of_ne hj, Function.update_of_ne hj]

theorem pair_ite (p : Nat → Prop) [DecidablePred p] (f : Nat → Nat) (src : Nat → α)
    (src' : Nat → β) :
    (fun j => (if p j then src (f j) else cells j, if p j then src' (f j) else cells' j))
      = fun j => if p j then (src (f j), src' (f j)) else (cells j, cells' j) := by
  funext j
  split <;> rfl

end Pairs

/-- The sizes `balance` is called with: if neither node lends the other an entry,
the left one has room for both. -/
def Fits (capacity left right : Nat) : Prop :=
  left ≤ capacity ∧ right ≤ capacity
    ∧ (¬ (left < underflowBound capacity ∧ underflowBound capacity < right) →
      ¬ (right < underflowBound capacity ∧ underflowBound capacity < left) →
      left + right ≤ capacity)

section Arrays

variable {K V A : Type*} {capacity : Nat}

theorem LeafArrays.balance_eq (hcap : 2 ≤ capacity) {left right : LeafArrays K V}
    (hfits : Fits capacity left.size right.size) :
    ∃ l r boundary, left.balance capacity right = some (l, r, boundary)
      ∧ balanceEntries capacity left.contents right.contents = (l.contents, r.contents, boundary)
      ∧ (boundary = none → l.rightSibling = right.rightSibling) := by
  obtain ⟨n, a, sl, ml⟩ := left
  obtain ⟨k, b, sr, mr⟩ := right
  obtain ⟨hl, hr, hsum⟩ := hfits
  have hU : underflowBound capacity = (capacity + 1) / 2 := rfl
  unfold LeafArrays.balance
  simp only at hl hr hsum ⊢
  by_cases hA : n < underflowBound capacity ∧ underflowBound capacity < k
  · obtain ⟨k, rfl⟩ : ∃ k', k = k' + 1 := ⟨k - 1, by omega⟩
    have hloop : forUp (moveDown capacity) k 0 b = some (movedDown b k) :=
      forUp_shift k 0 b (by omega)
    simp only [if_pos hA, put_of_lt (show n < capacity by omega), Nat.add_sub_cancel, hloop,
      Option.bind_some]
    exact ⟨_, _, _, rfl, balanceEntries_right hA (Nat.le_refl k), nofun⟩
  · by_cases hB : k < underflowBound capacity ∧ underflowBound capacity < n
    · obtain ⟨n, rfl⟩ : ∃ n', n = n' + 1 := ⟨n - 1, by omega⟩
      have hloop : forDown (moveUp capacity) k b = some (movedUp b k) :=
        forDown_shift k b (by omega)
      simp only [if_neg hA, if_pos hB, hloop, put_of_lt (show 0 < capacity by omega),
        Nat.add_sub_cancel, Option.bind_some, Function.update_self]
      exact ⟨_, _, _, rfl, balanceEntries_left hB (Nat.le_refl k), nofun⟩
    · have hloop : forUp (fun r a => put capacity a (n + r) (b r)) k 0 a = some (copied a b n k) :=
        forUp_copy b n k 0 a (by have := hsum hA hB; omega)
      simp only [if_neg hA, if_neg hB, hloop, Option.bind_some]
      exact ⟨_, _, _, rfl, balanceEntries_merge hA hB, fun _ => rfl⟩

theorem InnerArrays.balance_eq (hcap : 2 ≤ capacity) (noRep : A) {left right : InnerArrays K A}
    (hfits : Fits capacity left.size right.size) :
    ∃ l r boundary, left.balance capacity noRep right = some (l, r, boundary)
      ∧ balanceEntries capacity left.contents right.contents
        = (l.contents, r.contents, boundary) := by
  obtain ⟨n, ka, ca, ml⟩ := left
  obtain ⟨k, kb, cb, mr⟩ := right
  obtain ⟨hl, hr, hsum⟩ := hfits
  have hU : underflowBound capacity = (capacity + 1) / 2 := rfl
  unfold InnerArrays.balance InnerArrays.contents
  simp only at hl hr hsum ⊢
  by_cases hA : n < underflowBound capacity ∧ underflowBound capacity < k
  · have hloop : forUp (both (moveDown capacity) (moveDown capacity)) k 0 (kb, cb)
        = some (movedDown kb k, movedDown cb k) :=
      forUp_both _ _ k 0 (forUp_shift k 0 kb (by omega)) (forUp_shift k 0 cb (by omega))
    simp only [if_pos hA, put_of_lt (show n < capacity by omega), hloop, Option.bind_some]
    refine ⟨_, _, _, rfl, ?_⟩
    obtain ⟨k, rfl⟩ : ∃ k', k = k' + 1 := ⟨k - 1, by omega⟩
    simp only [Nat.add_sub_cancel, pair_update, movedDown, pair_ite]
    exact balanceEntries_right hA (Nat.le_succ k)
  · by_cases hB : k < underflowBound capacity ∧ underflowBound capacity < n
    · obtain ⟨n, rfl⟩ : ∃ n', n = n' + 1 := ⟨n - 1, by omega⟩
      have hloop : forDown (both (moveUp capacity) (moveUp capacity)) (k + 1) (kb, cb)
          = some (movedUp kb (k + 1), movedUp cb (k + 1)) :=
        forDown_both _ _ (k + 1) (forDown_shift (k + 1) kb (by omega))
          (forDown_shift (k + 1) cb (by omega))
      simp only [if_neg hA, if_pos hB, hloop, put_of_lt (show 0 < capacity by omega),
        Nat.add_sub_cancel, put_of_lt (show n < capacity by omega), Option.bind_some,
        Function.update_self]
      refine ⟨_, _, _, rfl, ?_⟩
      -- the vacated `child_rep_` lies behind the new size
      have hvacated : firstN (fun i => (ka i, Function.update ca n noRep i)) n
          = firstN (fun i => (ka i, ca i)) n :=
        firstN_congr (fun i hi => by rw [Function.update_of_ne (Nat.ne_of_lt hi)])
      simp only [hvacated, pair_update, movedUp, pair_ite]
      exact balanceEntries_left hB (Nat.le_succ k)
    · have hloop := forUp_both (fun r a => put capacity a (n + r) (kb r))
          (fun r a => put capacity a (n + r) (cb r)) k 0
          (forUp_copy kb n k 0 ka (by have := hsum hA hB; omega))
          (forUp_copy cb n k 0 ca (by have := hsum hA hB; omega))
      simp only [if_neg hA, if_neg hB, hloop, Option.bind_some]
      refine ⟨_, _, _, rfl, ?_⟩
      simp only [pair_ite]
      exact balanceEntries_merge hA hB

end Arrays

/-! ## §3. Nothing is lost. -/

/-- The entries of two neighbours before and after `balance`. -/
structure Redistributed {K β : Type*} (capacity : Nat) (left right l r : List (K × β))
    (boundary : Option K) : Prop where
  together : l ++ r = left ++ right
  /-- It returned `false`: one entry went from a node above the bound to one below,
  and the boundary is the first key of the right node. -/
  moved : ∀ b, boundary = some b → r.head?.map Prod.fst = some b
    ∧ ((left.length < underflowBound capacity ∧ underflowBound capacity < right.length
          ∧ ∃ e, right = e :: r ∧ l = left ++ [e])
      ∨ (right.length < underflowBound capacity ∧ underflowBound capacity < left.length
          ∧ ∃ e, left = l ++ [e] ∧ r = e :: right))
  /-- It returned `true`. -/
  merged : boundary = none → l = left ++ right ∧ r = []

theorem balanceEntries_redistributed {K β : Type*} {capacity : Nat} (hcap : 2 ≤ capacity)
    {left right l r : List (K × β)} {boundary : Option K}
    (h : balanceEntries capacity left right = (l, r, boundary)) :
    Redistributed capacity left right l r boundary := by
  have hU : 0 < underflowBound capacity := by unfold underflowBound; omega
  rcases balanceEntries_cases hU left right with ⟨e, e', rest, rfl, h1, h2, heq⟩
    | ⟨init, e, rfl, -, h1, h2, heq⟩ | ⟨-, heq⟩
  · obtain ⟨rfl, rfl, rfl⟩ : l = left ++ [e] ∧ r = e' :: rest ∧ boundary = some e'.1 := by
      simpa using h.symm.trans heq
    refine ⟨by simp, fun b hb => ?_, nofun⟩
    cases hb
    exact ⟨rfl, .inl ⟨h1, h2, e, rfl, rfl⟩⟩
  · obtain ⟨rfl, rfl, rfl⟩ : l = init ∧ r = e :: right ∧ boundary = some e.1 := by
      simpa using h.symm.trans heq
    refine ⟨by simp, fun b hb => ?_, nofun⟩
    cases hb
    exact ⟨rfl, .inr ⟨h1, h2, e, rfl, rfl⟩⟩
  · obtain ⟨rfl, rfl, rfl⟩ : l = left ++ right ∧ r = [] ∧ boundary = none := by
      simpa using h.symm.trans heq
    exact ⟨by simp, nofun, fun _ => ⟨rfl, rfl⟩⟩

section Redistributes

variable {K V A : Type*} {capacity : Nat}

/-- **`balance` redistributes without loss**, for leaves and for inner nodes:
whatever lies behind the arrays, no write leaves them, the entries of the two
nodes together are unchanged, and one of them has moved or the left node has them
all, with the right sibling of the merged leaf. -/
theorem balance_redistributes (hcap : 2 ≤ capacity) (noRep : A)
    (left right : LeafArrays K V) (hleaf : Fits capacity left.size right.size)
    (innerLeft innerRight : InnerArrays K A)
    (hinner : Fits capacity innerLeft.size innerRight.size) :
    (∃ l r boundary, left.balance capacity right = some (l, r, boundary)
        ∧ Redistributed capacity left.contents right.contents l.contents r.contents boundary
        ∧ (boundary = none → l.rightSibling = right.rightSibling))
      ∧ ∃ l r boundary, innerLeft.balance capacity noRep innerRight = some (l, r, boundary)
        ∧ Redistributed capacity innerLeft.contents innerRight.contents l.contents r.contents
          boundary := by
  constructor
  · obtain ⟨l, r, boundary, hrun, hcontents, hsibling⟩ := LeafArrays.balance_eq hcap hleaf
    exact ⟨l, r, boundary, hrun, balanceEntries_redistributed hcap hcontents, hsibling⟩
  · obtain ⟨l, r, boundary, hrun, hcontents⟩ := InnerArrays.balance_eq hcap noRep hinner
    exact ⟨l, r, boundary, hrun, balanceEntries_redistributed hcap hcontents⟩

/-- With room for three, a leaf of one entry borrows from one with three, and an
inner node of one child from one with three. -/
theorem balance_redistributes_three :
    ∃ l r boundary, LeafArrays.balance 3 (⟨1, fun i => (i, ()), none, false⟩ : LeafArrays Nat Unit)
        ⟨3, fun i => (i + 1, ()), none, false⟩ = some (l, r, boundary)
      ∧ Redistributed 3 [(0, ())] [(1, ()), (2, ()), (3, ())] l.contents r.contents boundary :=
  let h := balance_redistributes (show 2 ≤ 3 by decide) (0 : Nat)
    (⟨1, fun i => (i, ()), none, false⟩ : LeafArrays Nat Unit)
    ⟨3, fun i => (i + 1, ()), none, false⟩ ⟨by decide, by decide, by decide⟩
    (⟨1, fun i => i, fun i => i, false⟩ : InnerArrays Nat Nat)
    ⟨3, fun i => i + 1, fun i => i, false⟩ ⟨by decide, by decide, by decide⟩
  let ⟨l, r, boundary, hrun, hr, _⟩ := h.1
  ⟨l, r, boundary, hrun, hr⟩

end Redistributes

end NvmTree
