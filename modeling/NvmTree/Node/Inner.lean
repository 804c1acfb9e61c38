/-
  NvmTree.Node.Inner — `InnerNode`: locating a child, adding a child, the split.

  `slots` is `key_` and `child_rep_` side by side up to `size_`.  The cached
  `child_` references only save look-ups and are left out.

  The split of a full inner node is written three times in the source (in
  `InnerNode`, in the lock-based tree and in the pull-based tree), with the same
  effect on `key_`, `child_rep_` and `size_`; `splitInsert` is all three.

  Main results (for sorted keys):
    * `locateChildIndex_cases` — the child that may contain the key, or -1 when
      the key is below every slot.
    * `splitInsert_spec` — the halves, put together, are the slots with the new
      one in its place.
-/
import NvmTree.Node.Leaf

namespace NvmTree

open RangeTree

structure InnerNode (K : Type*) where
  selfRep : BlkAddress
  slots : List (K × BlkAddress)
  modified : Bool
  deriving Repr, DecidableEq

namespace InnerNode

variable {K : Type*} [LinearOrder K]

/-! ## §1. The operations. -/

/-- The constructor over two nodes, by their leftmost keys and addresses. -/
def ofChildren (selfRep : BlkAddress) (left right : K × BlkAddress) : InnerNode K :=
  ⟨selfRep, [left, right], false⟩

def size (n : InnerNode K) : Nat := n.slots.length

def hasFreeSlot (capacity : Nat) (n : InnerNode K) : Bool := n.size < capacity

def markModified (n : InnerNode K) : InnerNode K := { n with modified := true }

/-- How the loop of `locate_child_index` compares a slot with `key`. -/
def compareSlot (key : K) (s : K × BlkAddress) : Ordering :=
  if s.1 < key then .lt else if key < s.1 then .gt else .eq

def locateChildIndex (n : InnerNode K) (key : K) : Int :=
  if n.size = 0 then -1
  else
    let r := BinarySearch.bsearch (compareSlot key) n.slots (n.size + 1) 0 (n.size - 1)
    if r.1 then r.2 else r.2 - 1

/-- `key_[0] = key`, with the node marked modified. -/
def setFirstKey (n : InnerNode K) (key : K) : InnerNode K :=
  { n with slots := n.slots.modify 0 (fun s => (key, s.2)), modified := true }

def insertInnerNode (n : InnerNode K) (childRep : BlkAddress) (boundary_key : K)
    (insert_position : Nat) : InnerNode K :=
  { n with
    slots := n.slots.insertIdx insert_position (boundary_key, childRep)
    modified := true }

/-- The split of a full node whose child at `position` was split: the node and
its new right sibling at `rightRep`. -/
def splitInsert (capacity : Nat) (n : InnerNode K) (position : Nat) (childRep : BlkAddress)
    (boundary_key : K) (rightRep : BlkAddress) : InnerNode K × InnerNode K :=
  let start_index_for_right := capacity / 2
  let moved := n.size - start_index_for_right
  let right : InnerNode K := ⟨rightRep, n.slots.drop start_index_for_right, true⟩
  let left : InnerNode K := { n with slots := n.slots.take (n.size - moved), modified := true }
  if position < capacity / 2 then
    (left.insertInnerNode childRep boundary_key
      (left.locateChildIndex boundary_key + 1).toNat, right)
  else
    (left, right.insertInnerNode childRep boundary_key
      (right.locateChildIndex boundary_key + 1).toNat)

/-- `balance`: the two nodes, and the new boundary when they were not merged. -/
def balance (capacity : Nat) (left right : InnerNode K) : InnerNode K × InnerNode K × Option K :=
  let (l, r, boundary) := balanceEntries capacity left.slots right.slots
  ({ left with slots := l, modified := true }, { right with slots := r, modified := true }, boundary)

/-- Dropping the slot of a child that was merged away. -/
def removeChild (n : InnerNode K) (index : Nat) : InnerNode K :=
  { n with slots := n.slots.eraseIdx index, modified := true }

/-- `key_[index] = boundary`. -/
def setBoundary (n : InnerNode K) (index : Nat) (boundary : K) : InnerNode K :=
  { n with slots := n.slots.modify index (fun s => (boundary, s.2)), modified := true }

/-! ## §2. Locating a child. -/

variable {n : InnerNode K} {key : K}

theorem locateChildIndex_eq {les gts : List (K × BlkAddress)} (hs : SortedKeys n.slots)
    (he : n.slots = les ++ gts) (h1 : ∀ s ∈ les, s.1 ≤ key) (h2 : ∀ s ∈ gts, key < s.1) :
    n.locateChildIndex key = (les.length : Int) - 1 := by
  obtain ⟨lts, mid, gts', hcut, c1, c2, c3, c4⟩ := hs.locate key
  -- both cuts of the slots are the same
  have hles : les = lts ++ mid := by
    have e1 : n.slots.filter (fun s => decide (s.1 ≤ key)) = les := by
      rw [he, List.filter_append, List.filter_eq_self.2 (by simpa using h1),
        List.filter_eq_nil_iff.2 (by simpa using h2), List.append_nil]
    have e2 : n.slots.filter (fun s => decide (s.1 ≤ key)) = lts ++ mid := by
      rw [hcut, List.filter_append, List.filter_eq_self.2 ?_,
        List.filter_eq_nil_iff.2 (by simpa using c3), List.append_nil]
      intro s hm
      rcases List.mem_append.1 hm with hm | hm
      · simpa using (c1 s hm).le
      · simpa using (c2 s hm).le
    rw [← e1, e2]
  have e1 : ∀ s ∈ lts, compareSlot key s = .lt := fun s hm => by simp [compareSlot, c1 s hm]
  have e2 : ∀ s ∈ mid, compareSlot key s = .eq := fun s hm => by simp [compareSlot, c2 s hm]
  have e3 : ∀ s ∈ gts', compareSlot key s = .gt := by
    intro s hm
    have hlt := c3 s hm
    simp [compareSlot, hlt, not_lt.2 hlt.le]
  have hlen : (lts ++ mid ++ gts').length = lts.length + mid.length + gts'.length := by
    simp only [List.length_append]
  unfold locateChildIndex size
  rw [hles, List.length_append, hcut]
  by_cases hz : (lts ++ mid ++ gts').length = 0
  · rw [if_pos hz]
    have : lts.length = 0 := by omega
    have : mid.length = 0 := by omega
    omega
  · rw [if_neg hz, BinarySearch.bsearch_eq e1 e2 e3 c4 _ 0 _ (by omega) (by omega) (by omega)
      (by omega) (by omega)]
    rcases eq_nil_or_singleton c4 with rfl | ⟨x, rfl⟩ <;> simp

/-- **`locate_child_index`**: -1 when the key is below every slot, otherwise the
last slot whose key is at most `key`. -/
theorem locateChildIndex_cases (key : K) (hs : SortedKeys n.slots) :
    (n.locateChildIndex key = -1 ∧ ∀ s ∈ n.slots, key < s.1)
      ∨ ∃ xs ki c ys, n.slots = xs ++ (ki, c) :: ys ∧ n.locateChildIndex key = xs.length
          ∧ ki ≤ key ∧ ∀ s ∈ ys, key < s.1 := by
  obtain ⟨lts, mid, gts, hcut, c1, c2, c3, -⟩ := hs.locate key
  have hle : ∀ s ∈ lts ++ mid, s.1 ≤ key := by
    intro s hm
    rcases List.mem_append.1 hm with hm | hm
    · exact (c1 s hm).le
    · exact (c2 s hm).le
  have hidx := locateChildIndex_eq hs hcut hle c3
  by_cases hnil : lts ++ mid = []
  · left
    rw [hnil] at hidx hcut
    refine ⟨by simpa using hidx, ?_⟩
    rw [hcut]
    simpa using c3
  · right
    obtain ⟨xs, x, hx⟩ : ∃ xs x, lts ++ mid = xs ++ [x] :=
      ⟨_, _, (List.dropLast_concat_getLast hnil).symm⟩
    obtain ⟨ki, c⟩ := x
    refine ⟨xs, ki, c, gts, ?_, ?_, hle (ki, c) (by rw [hx]; simp), c3⟩
    · rw [hcut, hx]; simp
    · rw [hidx, hx]; simp

/-! ## §3. Adding a child. -/

omit [LinearOrder K] in
/-- The slot of the new child goes right after the slot of the child that was
split. -/
theorem insertInnerNode_slots {xs ys : List (K × BlkAddress)} {s : K × BlkAddress}
    (he : n.slots = xs ++ s :: ys) (childRep : BlkAddress) (boundary_key : K) :
    (n.insertInnerNode childRep boundary_key (xs.length + 1)).slots
      = xs ++ s :: (boundary_key, childRep) :: ys := by
  have hcut : n.slots = (xs ++ [s]) ++ ys := by rw [he]; simp
  have hlen : xs.length + 1 = (xs ++ [s]).length := by simp
  show n.slots.insertIdx (xs.length + 1) (boundary_key, childRep) = _
  rw [hcut, hlen, ListSplit.insertIdx_at]
  simp

/-- The insert position that the split recomputes in the chosen half. -/
theorem locate_boundary {xs ys : List (K × BlkAddress)} {s : K × BlkAddress} {b : K}
    (hs : SortedKeys n.slots) (he : n.slots = xs ++ s :: ys) (hsb : s.1 < b)
    (hys : ∀ t ∈ ys, b < t.1) : (n.locateChildIndex b + 1).toNat = xs.length + 1 := by
  have hcut : n.slots = (xs ++ [s]) ++ ys := by rw [he]; simp
  have hle : ∀ t ∈ xs ++ [s], t.1 ≤ b := by
    rw [he, sortedKeys_append] at hs
    intro t hm
    rcases List.mem_append.1 hm with hm | hm
    · exact ((hs.2.2 t hm s (by simp)).trans hsb).le
    · rw [List.mem_singleton.1 hm]; exact hsb.le
  rw [locateChildIndex_eq hs hcut hle hys]
  simp

/-- **The split of a full node**: put together, the halves are the slots with
the new one right after the slot of the child that was split. -/
theorem splitInsert_spec {capacity : Nat} {xs ys : List (K × BlkAddress)} {s : K × BlkAddress}
    {b : K} (hs : SortedKeys n.slots) (he : n.slots = xs ++ s :: ys)
    (hfull : n.size = capacity) (hcap : 2 ≤ capacity) (hsb : s.1 < b) (hys : ∀ t ∈ ys, b < t.1)
    (childRep rightRep : BlkAddress) :
    ∃ L R, n.splitInsert capacity xs.length childRep b rightRep
        = (⟨n.selfRep, L, true⟩, ⟨rightRep, R, true⟩)
      ∧ L ++ R = xs ++ s :: (b, childRep) :: ys ∧ L ≠ [] ∧ R ≠ []
      ∧ L.length ≤ capacity ∧ R.length ≤ capacity := by
  have hlen : xs.length + ys.length + 1 = capacity := by
    rw [← hfull, size, he]
    simp only [List.length_append, List.length_cons]
    omega
  have hhalf : n.size - (n.size - capacity / 2) = capacity / 2 := by omega
  have hsub : ∀ {l}, List.Sublist l n.slots → SortedKeys l := fun h => List.Pairwise.sublist h hs
  unfold splitInsert
  simp only [hhalf]
  by_cases hpos : xs.length < capacity / 2
  · have htake : n.slots.take (capacity / 2)
        = xs ++ s :: ys.take (capacity / 2 - xs.length - 1) := by
      rw [he, List.take_append, List.take_of_length_le (by omega)]
      obtain ⟨m, hm⟩ : ∃ m, capacity / 2 - xs.length = m + 1 := ⟨capacity / 2 - xs.length - 1, by omega⟩
      rw [hm, List.take_succ_cons]
      simp
    have hdrop : n.slots.drop (capacity / 2) = ys.drop (capacity / 2 - xs.length - 1) := by
      rw [he, List.drop_append, List.drop_eq_nil_of_le (by omega)]
      obtain ⟨m, hm⟩ : ∃ m, capacity / 2 - xs.length = m + 1 := ⟨capacity / 2 - xs.length - 1, by omega⟩
      rw [hm, List.drop_succ_cons]
      simp
    have hloc : ((⟨n.selfRep, n.slots.take (capacity / 2), true⟩ : InnerNode K).locateChildIndex b
        + 1).toNat = xs.length + 1 :=
      locate_boundary (hsub (List.take_sublist _ _)) htake hsb
        (fun t hm => hys t (List.mem_of_mem_take hm))
    have hins := insertInnerNode_slots
      (show (⟨n.selfRep, n.slots.take (capacity / 2), true⟩ : InnerNode K).slots = _ from htake)
      childRep b
    refine ⟨xs ++ s :: (b, childRep) :: ys.take (capacity / 2 - xs.length - 1),
      ys.drop (capacity / 2 - xs.length - 1), ?_, by simp, by simp, ?_, ?_, ?_⟩
    · rw [if_pos hpos, hloc, hdrop, ← hins]
      rfl
    · intro hnil
      have := congrArg List.length hnil
      simp only [List.length_drop, List.length_nil] at this
      omega
    · simp only [List.length_append, List.length_cons, List.length_take]
      omega
    · simp only [List.length_drop]
      omega
  · have htake : n.slots.take (capacity / 2) = xs.take (capacity / 2) := by
      rw [he, List.take_append_of_le_length (by omega)]
    have hdrop : n.slots.drop (capacity / 2) = xs.drop (capacity / 2) ++ s :: ys := by
      rw [he, List.drop_append_of_le_length (by omega)]
    have hloc : ((⟨rightRep, n.slots.drop (capacity / 2), true⟩ : InnerNode K).locateChildIndex b
        + 1).toNat = (xs.drop (capacity / 2)).length + 1 :=
      locate_boundary (hsub (List.drop_sublist _ _)) hdrop hsb hys
    have hins := insertInnerNode_slots
      (show (⟨rightRep, n.slots.drop (capacity / 2), true⟩ : InnerNode K).slots = _ from hdrop)
      childRep b
    refine ⟨xs.take (capacity / 2), xs.drop (capacity / 2) ++ s :: (b, childRep) :: ys, ?_, ?_, ?_,
      by simp, ?_, ?_⟩
    · rw [if_neg hpos, hloc, htake, ← hins]
      rfl
    · rw [← List.append_assoc, List.take_append_drop]
    · intro hnil
      have := congrArg List.length hnil
      simp only [List.length_take, List.length_nil] at this
      omega
    · simp only [List.length_take]
      omega
    · simp only [List.length_append, List.length_cons, List.length_drop]
      omega

end InnerNode

/-! ## §4. Nodes and blocks. -/

/-- A node object: `LEAF` or `INNER`. -/
inductive Node (K V : Type*) where
  | leaf (n : LeafNode K V)
  | inner (n : InnerNode K)
  deriving Repr, DecidableEq

namespace Node

variable {K V : Type*}

def selfRep : Node K V → BlkAddress
  | .leaf n => n.selfRep
  | .inner n => n.selfRep

def size : Node K V → Nat
  | .leaf n => n.entries.length
  | .inner n => n.slots.length

def modified : Node K V → Bool
  | .leaf n => n.modified
  | .inner n => n.modified

/-- `get_leftmost_key`; `none` where the source would read entry 0 of an empty
node. -/
def getLeftmostKey : Node K V → Option K
  | .leaf n => n.entries.head?.map Prod.fst
  | .inner n => n.slots.head?.map Prod.fst

/-- What the node holds, as a cell of a tree. -/
def shape : Node K V → Shape K V BlkAddress
  | .leaf n => .leaf n.entries n.rightSibling
  | .inner n => .inner n.slots

end Node

/-- The bytes of a block, as far as `deserialize` reads them back: the type
tag, `size_` with the entries, `self_rep_` and `right_sibling_`. -/
inductive Block (K V : Type*) where
  | leaf (selfRep : BlkAddress) (rightSibling : Option BlkAddress) (entries : List (K × V))
  | inner (selfRep : BlkAddress) (slots : List (K × BlkAddress))
  deriving Repr, DecidableEq

def LeafNode.serialize {K V : Type*} (n : LeafNode K V) : Block K V :=
  .leaf n.selfRep n.rightSibling n.entries

def InnerNode.serialize {K : Type*} (V : Type*) (n : InnerNode K) : Block K V :=
  .inner n.selfRep n.slots

def Node.serialize {K V : Type*} : Node K V → Block K V
  | .leaf n => n.serialize
  | .inner n => n.serialize V

/-- Reading the type tag and deserialising into a new node object, which is
not modified. -/
def Block.deserialize {K V : Type*} : Block K V → Node K V
  | .leaf rep sib es => .leaf ⟨rep, sib, es, false⟩
  | .inner rep slots => .inner ⟨rep, slots, false⟩

def Block.shape {K V : Type*} (b : Block K V) : Shape K V BlkAddress := b.deserialize.shape

def Block.selfRep {K V : Type*} (b : Block K V) : BlkAddress := b.deserialize.selfRep

end NvmTree
