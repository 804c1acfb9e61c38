/-
  NvmTree.Node.Halves — the nodes an insertion leaves.

  An insertion into a leaf, and the split of a full inner node, give nodes that are
  marked modified: the left one keeps its address, the right one has the address that
  was allocated for it.  Neither half is empty, so both have a leftmost key.
-/
import NvmTree.Node.Inner

namespace NvmTree

open RangeTree

variable {K V : Type*} [LinearOrder K]

/-- The halves are marked modified, the right one is at the address given. -/
theorem InnerNode.splitInsert_flags (cap : Nat) (n : InnerNode K) (position : Nat) (childRep : BlkAddress)
    (b : K) (rightRep : BlkAddress) :
    (n.splitInsert cap position childRep b rightRep).1.selfRep = n.selfRep
      ∧ (n.splitInsert cap position childRep b rightRep).1.modified = true
      ∧ (n.splitInsert cap position childRep b rightRep).2.selfRep = rightRep
      ∧ (n.splitInsert cap position childRep b rightRep).2.modified = true := by
  unfold InnerNode.splitInsert
  dsimp only
  split
  · exact ⟨rfl, rfl, rfl, rfl⟩
  · exact ⟨rfl, rfl, rfl, rfl⟩

/-- A full node has slots for both halves. -/
theorem InnerNode.splitInsert_ne_nil {cap : Nat} {n : InnerNode K} (hcap : 2 ≤ cap) (hfull : n.size = cap)
    (position : Nat) (childRep : BlkAddress) (b : K) (rightRep : BlkAddress) :
    (n.splitInsert cap position childRep b rightRep).1.slots ≠ []
      ∧ (n.splitInsert cap position childRep b rightRep).2.slots ≠ [] := by
  have hsize : n.slots.length = cap := hfull
  have hinsert : ∀ (l : List (K × BlkAddress)) i x, 0 < l.length → l.insertIdx i x ≠ [] :=
    fun l i x hl => List.ne_nil_of_length_pos (hl.trans_le List.length_le_length_insertIdx)
  unfold InnerNode.splitInsert InnerNode.insertInnerNode InnerNode.size
  dsimp only
  split
  · refine ⟨hinsert _ _ _ ?_, List.ne_nil_of_length_pos ?_⟩
    · rw [List.length_take]
      omega
    · rw [List.length_drop]
      omega
  · refine ⟨List.ne_nil_of_length_pos ?_, hinsert _ _ _ ?_⟩
    · rw [List.length_take]
      omega
    · rw [List.length_drop]
      omega

omit [LinearOrder K] in
theorem Node.getLeftmostKey_inner {n : InnerNode K} (h : n.slots ≠ []) :
    (Node.inner n : Node K V).getLeftmostKey ≠ none := by
  obtain ⟨s, rest, he⟩ := List.exists_cons_of_ne_nil h
  unfold Node.getLeftmostKey
  dsimp only
  rw [he]
  exact Option.some_ne_none _

/-- The slot a key goes down to is there. -/
theorem InnerNode.locateChildIndex_lt_length {n : InnerNode K} (hs : SortedKeys n.slots) (hne : n.slots ≠ [])
    (key : K) : (n.locateChildIndex key).toNat < n.slots.length := by
  rcases n.locateChildIndex_cases key hs with ⟨hi, -⟩ | ⟨xs, ki, c, ys, he, hi, -⟩
  · rw [hi]
    exact List.length_pos_iff.2 hne
  · rw [hi, he]
    simp

theorem LeafNode.insert_flags (capacity : Nat) (n : LeafNode K V) (key : K) (val : V) :
    (n.insert capacity key val).1.selfRep = n.selfRep
      ∧ (n.insert capacity key val).1.modified = true := by
  unfold LeafNode.insert
  dsimp only
  split
  · exact ⟨rfl, rfl⟩
  · split
    · exact ⟨rfl, rfl⟩
    · exact ⟨rfl, rfl⟩

/-- Both nodes are marked modified, the right one is at the address given. -/
theorem LeafNode.insertWithSplitSupport_flags (capacity : Nat) (n : LeafNode K V) (key : K) (val : V)
    (rightRep : BlkAddress) :
    (n.insertWithSplitSupport capacity key val rightRep).1.selfRep = n.selfRep
      ∧ (n.insertWithSplitSupport capacity key val rightRep).1.modified = true
      ∧ ∀ r ∈ (n.insertWithSplitSupport capacity key val rightRep).2,
          r.1.selfRep = rightRep ∧ r.1.modified = true := by
  unfold LeafNode.insertWithSplitSupport
  dsimp only
  split
  · exact ⟨rfl, rfl, by simp⟩
  · split
    · exact ⟨rfl, rfl, by simp⟩
    · split
      · refine ⟨(LeafNode.insert_flags ..).1, (LeafNode.insert_flags ..).2, fun r hr => ?_⟩
        rw [← Option.some.inj hr]
        exact ⟨rfl, rfl⟩
      · refine ⟨rfl, rfl, fun r hr => ?_⟩
        rw [← Option.some.inj hr]
        exact LeafNode.insert_flags ..

/-- With room in the leaf the two ways to insert are the same. -/
theorem LeafNode.insertWithSplitSupport_of_room {cap : Nat} {n : LeafNode K V} (hroom : n.size < cap)
    (key : K) (value : V) (rightRep : BlkAddress) :
    n.insertWithSplitSupport cap key value rightRep = ((n.insert cap key value).1, none) := by
  have hroom' : ¬ cap ≤ ({ n with modified := true } : LeafNode K V).size := not_le.2 hroom
  unfold LeafNode.insertWithSplitSupport LeafNode.insert
  dsimp only
  split
  · rfl
  · rw [if_neg hroom', if_pos (not_le.1 hroom')]

end NvmTree
