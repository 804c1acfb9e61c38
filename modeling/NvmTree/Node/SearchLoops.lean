/-
  NvmTree.Node.SearchLoops — the two binary searches, in the machine's integers.

  `LeafNode::search_key_position` and `InnerNode::locate_child_index` keep `l`,
  `m` and `r` in an `int`.  Here the two loops run as written, over 32-bit
  numbers: a run gets stuck on an overflow and on a read outside the array, and
  has no result before the loop is left.  They do neither on a node of fewer
  than 2^30 elements, and compute what `LeafNode.searchKeyPosition` and
  `InnerNode.locateChildIndex` say.

  Main result:
    * `binary_searches_exact` — the loops end after at most `size_ + 1` tests and
      return the place of the key; for a key not below `key_[0]` the inner one
      returns what the linear scan would.
-/
import NvmTree.Node.Inner

namespace NvmTree

open RangeTree BinarySearch

/-! ## §1. The loops. -/

/-- `search_key_position`, for at most `rounds` tests of the loop condition. -/
def LeafNode.searchKeyPosition32 {K V : Type*} [LinearOrder K] (rounds : Nat) (n : LeafNode K V)
    (key : K) : Option (Bool × Int) := do
  let r ← int32 (n.size - 1)
  bsearch32 (compareEntry key) n.entries rounds 0 r

namespace InnerNode

variable {K : Type*} [LinearOrder K]

/-- `locate_child_index`, for at most `rounds` tests of the loop condition. -/
def locateChildIndex32 (rounds : Nat) (n : InnerNode K) (key : K) : Option Int :=
  if n.size = 0 then some (-1)
  else do
    let r ← int32 (n.size - 1)
    let (found, i) ← bsearch32 (compareSlot key) n.slots rounds 0 r
    if found then some i else int32 (i - 1)

/-- `while (i < size_ && !(key < key_[i])) ++i;`, over the slots from `i` on. -/
def scanFrom (key : K) : List (K × BlkAddress) → Nat → Nat
  | [], i => i
  | s :: rest, i => if key < s.1 then i else scanFrom key rest (i + 1)

/-- The scan that the binary search replaced: it starts at `i = 1` and returns
`i - 1`. -/
def locateChildIndexByScan (n : InnerNode K) (key : K) : Int :=
  (scanFrom key (n.slots.drop 1) 1 : Int) - 1

end InnerNode

variable {K V : Type*} [LinearOrder K]

/-! ## §2. They compute the modelled functions. -/

theorem LeafNode.searchKeyPosition32_eq {n : LeafNode K V} (hsize : n.size < 2 ^ 30) (key : K) :
    n.searchKeyPosition32 (n.size + 1) key
      = some ((n.searchKeyPosition key).1, ((n.searchKeyPosition key).2 : Int)) := by
  have hr : int32 ((n.size : Int) - 1) = some ((n.size : Int) - 1) :=
    int32_eq (by omega) (by omega)
  unfold searchKeyPosition32 searchKeyPosition
  simp only [hr, Option.bind_eq_bind, Option.bind_some]
  rw [bsearch32_eq hsize _ _ _ (by omega) (by omega) (by unfold size; omega) (by omega)]
  have hpos : 0 ≤ (bsearch (compareEntry key) n.entries (n.size + 1) 0 (n.size - 1)).2 :=
    (bsearch_between (n.size + 1) (by omega)).1
  rw [Int.toNat_of_nonneg hpos]

theorem InnerNode.locateChildIndex32_eq {n : InnerNode K} (hsize : n.size < 2 ^ 30) (key : K) :
    n.locateChildIndex32 (n.size + 1) key = some (n.locateChildIndex key) := by
  unfold locateChildIndex32 locateChildIndex
  split
  · rfl
  · have hr : int32 ((n.size : Int) - 1) = some ((n.size : Int) - 1) :=
      int32_eq (by omega) (by omega)
    simp only [hr, Option.bind_eq_bind, Option.bind_some]
    rw [bsearch32_eq hsize _ _ _ (by omega) (by omega) (by unfold size; omega) (by omega)]
    have hbetween : 0 ≤ (bsearch (compareSlot key) n.slots (n.size + 1) 0 (n.size - 1)).2
        ∧ (bsearch (compareSlot key) n.slots (n.size + 1) 0 (n.size - 1)).2 ≤ n.size - 1 + 1 :=
      have h := bsearch_between (n.size + 1) (by omega)
      ⟨h.1, h.2.1⟩
    obtain ⟨h0, h1⟩ := hbetween
    simp only [Option.bind_some]
    split
    · rfl
    · exact int32_eq (by omega) (by omega)

/-! ## §3. The scan. -/

/-- The scan passes the slots that are not above the key. -/
theorem InnerNode.scanFrom_append {key : K} {gts : List (K × BlkAddress)}
    (h2 : ∀ s ∈ gts, key < s.1) :
    ∀ (les : List (K × BlkAddress)) (i : Nat), (∀ s ∈ les, s.1 ≤ key) →
      scanFrom key (les ++ gts) i = i + les.length := by
  intro les
  induction les with
  | nil =>
      intro i _
      cases gts with
      | nil => rfl
      | cons s gts =>
          show (if key < s.1 then i else _) = i
          rw [if_pos (h2 s List.mem_cons_self)]
  | cons s les ih =>
      intro i h1
      show (if key < s.1 then i else scanFrom key (les ++ gts) (i + 1)) = _
      rw [if_neg (not_lt.2 (h1 s List.mem_cons_self)),
        ih (i + 1) (fun s' hs' => h1 s' (List.mem_cons_of_mem _ hs')), List.length_cons]
      omega

/-- From a first slot that is not above the key, the scan and the binary search
agree. -/
theorem InnerNode.locateChildIndexByScan_eq {n : InnerNode K} {key : K} (hs : SortedKeys n.slots)
    {s : K × BlkAddress} (hfirst : n.slots[0]? = some s) (hle : s.1 ≤ key) :
    n.locateChildIndexByScan key = n.locateChildIndex key := by
  rcases locateChildIndex_cases key hs with ⟨-, hbelow⟩ | ⟨xs, ki, c, ys, hslots, hidx, hki, hys⟩
  · exact absurd (hbelow s (List.mem_of_getElem? hfirst)) (not_lt.2 hle)
  · rw [hidx]
    -- every slot up to the one located is at most the key
    have hxs : ∀ x ∈ xs ++ [(ki, c)], x.1 ≤ key := by
      intro x hx
      rcases List.mem_append.1 hx with hx | hx
      · rw [hslots] at hs
        exact ((List.pairwise_append.1 hs).2.2 x hx (ki, c) List.mem_cons_self).le.trans hki
      · rw [List.mem_singleton.1 hx]
        exact hki
    have hcut : n.slots.drop 1 = (xs ++ [(ki, c)]).drop 1 ++ ys := by
      rw [hslots, ← List.drop_append_of_le_length (by simp), List.append_assoc]
      rfl
    unfold locateChildIndexByScan
    rw [hcut, scanFrom_append hys _ 1 (fun x hx => hxs x (List.mem_of_mem_drop hx)), List.length_drop, List.length_append]
    simp only [List.length_singleton]
    omega

/-! ## §4. Exactness. -/

/-- **Both binary searches are exact.**  On any sorted node of fewer than 2^30
elements, with `int` arithmetic and within `size_ + 1` tests of the loop
condition: the leaf's search returns the index of the key, or the number of
smaller keys; the inner node's returns the last slot whose key is not above the
key, or -1, and this is what the scan returns from a first slot not above it. -/
theorem binary_searches_exact (n : LeafNode K V) (c : InnerNode K) (key : K)
    (hn : SortedKeys n.entries) (hnsize : n.size < 2 ^ 30)
    (hc : SortedKeys c.slots) (hcsize : c.size < 2 ^ 30) :
    ((∃ (position : Nat) (val : V), n.entries[position]? = some (key, val)
          ∧ n.searchKeyPosition32 (n.size + 1) key = some (true, (position : Int)))
        ∨ ((∀ e ∈ n.entries, e.1 ≠ key)
          ∧ n.searchKeyPosition32 (n.size + 1) key
            = some (false, (n.entries.countP (fun e => e.1 < key) : Int))))
      ∧ ∃ i : Int, c.locateChildIndex32 (c.size + 1) key = some i
        ∧ ((i = -1 ∧ ∀ s ∈ c.slots, key < s.1)
          ∨ (0 ≤ i ∧ (∃ s, c.slots[i.toNat]? = some s ∧ s.1 ≤ key)
            ∧ ∀ j s, i < j → c.slots[j.toNat]? = some s → key < s.1))
        ∧ (∀ s, c.slots[0]? = some s → s.1 ≤ key → i = c.locateChildIndexByScan key) := by
  refine ⟨?_, c.locateChildIndex key, InnerNode.locateChildIndex32_eq hcsize key, ?_,
    fun s hfirst hle => (InnerNode.locateChildIndexByScan_eq hc hfirst hle).symm⟩
  · obtain ⟨lts, mid, gts, he, h1, h2, h3, h4⟩ := hn.locate key
    rw [LeafNode.searchKeyPosition32_eq hnsize, LeafNode.searchKeyPosition_eq he h1 h2 h3 h4]
    rcases eq_nil_or_singleton h4 with rfl | ⟨⟨k, v⟩, rfl⟩
    · right
      rw [List.append_nil] at he
      constructor
      · intro e hm
        rcases List.mem_append.1 (he ▸ hm) with hm | hm
        · exact (h1 e hm).ne
        · exact (h3 e hm).ne'
      · have hlts : lts.countP (fun e => decide (e.1 < key)) = lts.length :=
          List.countP_eq_length.2 (by simpa using h1)
        have hgts : gts.countP (fun e => decide (e.1 < key)) = 0 :=
          List.countP_eq_zero.2 (by simpa using fun e v hm => (h3 (e, v) hm).le)
        rw [he, List.countP_append, hlts, hgts]
        simp
    · left
      have hk : k = key := h2 (k, v) (by simp)
      subst hk
      exact ⟨lts.length, v, by rw [he]; simp, by simp⟩
  · rcases InnerNode.locateChildIndex_cases key hc with h | ⟨xs, ki, a, ys, hslots, hidx, hki, hys⟩
    · exact .inl h
    · right
      rw [hidx]
      refine ⟨by omega, ⟨(ki, a), by rw [hslots]; simp, hki⟩, ?_⟩
      intro j s hj hs
      -- an index past the located slot lies in `ys`
      have hj' : xs.length + 1 ≤ j.toNat := by omega
      rw [hslots, List.append_cons, List.getElem?_append_right (by simpa using hj')] at hs
      exact hys s (List.mem_of_getElem? hs)

/-- A search for 5 in the leaf with keys 3 and 8, and in an inner node with the
same keys. -/
theorem binary_searches_exact_two :
    (⟨0, none, [(3, ()), (8, ())], false⟩ : LeafNode Nat Unit).searchKeyPosition32 3 5
        = some (false, 1)
      ∧ ∃ i : Int,
        (⟨1, [(3, 20), (8, 21)], false⟩ : InnerNode Nat).locateChildIndex32 3 5 = some i := by
  have h := binary_searches_exact
    (⟨0, none, [(3, ()), (8, ())], false⟩ : LeafNode Nat Unit)
    (⟨1, [(3, 20), (8, 21)], false⟩ : InnerNode Nat) 5
    (by simp [SortedKeys]) (by decide) (by simp [SortedKeys]) (by decide)
  obtain ⟨-, i, hi, -⟩ := h
  exact ⟨by decide, i, hi⟩

end NvmTree
