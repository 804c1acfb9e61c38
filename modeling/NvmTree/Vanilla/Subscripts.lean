/-
  NvmTree.Vanilla.Subscripts — the array subscripts of the sequential tree.

  A node keeps its entries in arrays of `CAPACITY` elements: `entries_` of a leaf,
  and `key_`, `child_rep_`, `child_` of an inner node, which are always indexed
  alike.  For each operation this module lists the subscripts the source
  evaluates, loop by loop and reads included.  `Within` says that they all lie in
  the array.

  One loop does not keep to it: when an inner node borrows from its right
  sibling, `balance` shifts with `right->key_[i] = right->key_[i + 1]` up to
  `i = right->size_ - 1`, and so reads `key_[right->size_]`.

  Main results:
    * `run_subscripts` — along every run in which no inner node borrows from a
      right sibling with `CAPACITY` children, all subscripts are in the arrays.
    * `innerBalance_full` — such a borrow reads one past the end.
-/
import NvmTree.Vanilla.Balance

namespace NvmTree

open RangeTree

/-! ## §1. Loops. -/

/-- `i` in `for (int i = lo; i < hi; ++i)`. -/
def loopUp (lo hi : Int) : List Int := (List.range (hi - lo).toNat).map (fun d : Nat => lo + d)

/-- `i` in `for (int i = hi; i >= lo; --i)`. -/
def loopDown (hi lo : Int) : List Int := (loopUp lo (hi + 1)).reverse

theorem mem_loopUp {lo hi i : Int} : i ∈ loopUp lo hi ↔ lo ≤ i ∧ i < hi := by
  unfold loopUp
  simp only [List.mem_map, List.mem_range]
  constructor
  · rintro ⟨d, hd, rfl⟩
    omega
  · rintro ⟨h1, h2⟩
    exact ⟨(i - lo).toNat, by omega, by omega⟩

theorem mem_loopDown {lo hi i : Int} : i ∈ loopDown hi lo ↔ lo ≤ i ∧ i ≤ hi := by
  rw [loopDown, List.mem_reverse, mem_loopUp]
  omega

/-- All subscripts lie in an array of `capacity` elements. -/
def Within (capacity : Nat) (l : List Int) : Prop := ∀ i ∈ l, 0 ≤ i ∧ i < (capacity : Int)

section Within

variable {capacity : Nat} {l l' : List Int} {i : Int}

@[simp] theorem within_nil : Within capacity [] := fun _ h => nomatch h

@[simp] theorem within_cons :
    Within capacity (i :: l) ↔ (0 ≤ i ∧ i < (capacity : Int)) ∧ Within capacity l :=
  List.forall_mem_cons

@[simp] theorem within_append : Within capacity (l ++ l') ↔ Within capacity l ∧ Within capacity l' :=
  List.forall_mem_append

/-- A loop whose body uses the subscripts `f i` and `g i`. -/
theorem within_loop {f g : Int → Int} (hf : ∀ i ∈ l, 0 ≤ f i ∧ f i < (capacity : Int))
    (hg : ∀ i ∈ l, 0 ≤ g i ∧ g i < (capacity : Int)) :
    Within capacity (l.flatMap (fun i => [f i, g i])) := by
  intro x hx
  obtain ⟨i, hi, hx⟩ := List.mem_flatMap.1 hx
  rcases List.mem_cons.1 hx with rfl | hx
  · exact hf i hi
  · rw [List.mem_singleton.1 hx]
    exact hg i hi

end Within

/-- Making room at `position` in the first `size` elements, and filling it. -/
def shiftUp (size position : Nat) : List Int :=
  (loopDown (size - 1) position).flatMap (fun i => [i + 1, i]) ++ [(position : Int)]

theorem within_shiftUp {capacity size position : Nat} (hs : size < capacity)
    (hp : position ≤ size) : Within capacity (shiftUp size position) := by
  refine within_append.2 ⟨within_loop ?_ ?_, ?_⟩
  · intro i hi
    have := mem_loopDown.1 hi
    omega
  · intro i hi
    have := mem_loopDown.1 hi
    omega
  · simp only [within_cons, within_nil, and_true]
    omega

variable {K V : Type*} [LinearOrder K]

/-! ## §2. Leaves. -/

namespace LeafNode

/-- `search_key_position`. -/
def searchKeySubscripts (n : LeafNode K V) (key : K) : List Int :=
  BinarySearch.probes (compareEntry key) n.entries (n.size + 1) 0 (n.size - 1)

/-- `insert`. -/
def insertSubscripts (capacity : Nat) (n : LeafNode K V) (key : K) : List Int :=
  n.searchKeySubscripts key ++
    match n.searchKeyPosition key with
    | (true, position) => [(position : Int)]
    | (false, position) => if capacity ≤ n.size then [] else shiftUp n.size position

/-- `insert_with_split_support`. -/
def insertWithSplitSubscripts (capacity : Nat) (n : LeafNode K V) (key : K) : List Int :=
  n.searchKeySubscripts key ++
    match n.searchKeyPosition key with
    | (true, position) => [(position : Int)]
    | (false, position) =>
        if n.size < capacity then shiftUp n.size position
        else
          let moved := capacity - capacity / 2
          let right := { n with entries := (n.entries.drop (capacity / 2)).take moved }
          let left := { n with entries := n.entries.take (n.size - moved) }
          (loopUp (capacity / 2 : Nat) capacity).flatMap
              (fun i : Int => [i - (capacity / 2 : Nat), i])
            ++ (if position < capacity / 2 then left.insertSubscripts capacity key
              else right.insertSubscripts capacity key)
            ++ [0]

/-- `search`. -/
def searchSubscripts (n : LeafNode K V) (key : K) : List Int :=
  n.searchKeySubscripts key ++
    match n.searchKeyPosition key with
    | (true, position) => [(position : Int)]
    | (false, _) => []

/-- `delete_key(k, underflow)`. -/
def deleteSubscripts (n : LeafNode K V) (key : K) : List Int :=
  n.searchKeySubscripts key ++
    match n.searchKeyPosition key with
    | (true, position) => (loopUp position (n.size - 1)).flatMap (fun i => [i, i + 1])
    | (false, _) => []

/-- `balance`. -/
def balanceSubscripts (capacity : Nat) (left right : LeafNode K V) : List Int :=
  let underflow_bound := underflowBound capacity
  if left.size < underflow_bound ∧ underflow_bound < right.size then
    [(left.size : Int), 0] ++ (loopUp 0 (right.size - 1)).flatMap (fun i => [i, i + 1]) ++ [0]
  else if right.size < underflow_bound ∧ underflow_bound < left.size then
    (loopDown (right.size - 1) 0).flatMap (fun i => [i + 1, i]) ++ [0, (left.size : Int) - 1] ++ [0]
  else (loopUp 0 right.size).flatMap (fun i => [(left.size : Int) + i, i])

variable {capacity : Nat} {n : LeafNode K V} {key : K}

theorem searchKeyPosition_le (n : LeafNode K V) (key : K) :
    (n.searchKeyPosition key).2 ≤ n.size
      ∧ ((n.searchKeyPosition key).1 = true → (n.searchKeyPosition key).2 < n.size) := by
  obtain ⟨h1, h2, h3⟩ := @BinarySearch.bsearch_between _ (compareEntry key) n.entries
    (n.size + 1) 0 ((n.size : Int) - 1) (by omega)
  refine ⟨by simp only [searchKeyPosition]; omega, fun hf => ?_⟩
  have := h3 hf
  simp only [searchKeyPosition]
  omega

theorem within_searchKey (hs : n.size ≤ capacity) : Within capacity (n.searchKeySubscripts key) := by
  intro i hi
  have := BinarySearch.probes_between _ hi
  omega

theorem within_insert (hs : n.size ≤ capacity) : Within capacity (n.insertSubscripts capacity key) := by
  obtain ⟨hle, hlt⟩ := searchKeyPosition_le n key
  unfold insertSubscripts
  refine within_append.2 ⟨within_searchKey hs, ?_⟩
  split
  · rename_i position heq
    rw [heq] at hlt
    have := hlt rfl
    simp only [within_cons, within_nil, and_true]
    omega
  · rename_i position heq
    rw [heq] at hle
    split
    · exact within_nil
    · exact within_shiftUp (by omega) hle

theorem within_insertWithSplit (hcap : 2 ≤ capacity) (hs : n.size ≤ capacity) :
    Within capacity (n.insertWithSplitSubscripts capacity key) := by
  have hlen : n.entries.length ≤ capacity := hs
  obtain ⟨hle, hlt⟩ := searchKeyPosition_le n key
  unfold insertWithSplitSubscripts
  refine within_append.2 ⟨within_searchKey hs, ?_⟩
  split
  · rename_i position heq
    rw [heq] at hlt
    have := hlt rfl
    simp only [within_cons, within_nil, and_true]
    omega
  · rename_i position heq
    rw [heq] at hle
    split
    · exact within_shiftUp (by omega) hle
    · refine within_append.2 ⟨within_append.2 ⟨within_loop ?_ ?_, ?_⟩, ?_⟩
      · intro i hi
        have := mem_loopUp.1 hi
        omega
      · intro i hi
        have := mem_loopUp.1 hi
        omega
      · split
        · refine within_insert ?_
          simp only [size, List.length_take]
          omega
        · refine within_insert ?_
          simp only [size, List.length_take, List.length_drop]
          omega
      · simp only [within_cons, within_nil, and_true]
        omega

theorem within_search (hs : n.size ≤ capacity) : Within capacity (n.searchSubscripts key) := by
  obtain ⟨-, hlt⟩ := searchKeyPosition_le n key
  unfold searchSubscripts
  refine within_append.2 ⟨within_searchKey hs, ?_⟩
  split
  · rename_i position heq
    rw [heq] at hlt
    have := hlt rfl
    simp only [within_cons, within_nil, and_true]
    omega
  · exact within_nil

theorem within_delete (hs : n.size ≤ capacity) : Within capacity (n.deleteSubscripts key) := by
  unfold deleteSubscripts
  refine within_append.2 ⟨within_searchKey hs, ?_⟩
  split
  · refine within_loop ?_ ?_
    · intro i hi
      have := mem_loopUp.1 hi
      omega
    · intro i hi
      have := mem_loopUp.1 hi
      omega
  · exact within_nil

omit [LinearOrder K] in
theorem within_balance {left right : LeafNode K V} (hb : 2 ≤ underflowBound capacity)
    (hl : left.size ≤ capacity) (hr : right.size ≤ capacity)
    (hunder : left.size < underflowBound capacity ∨ right.size < underflowBound capacity) :
    Within capacity (left.balanceSubscripts capacity right) := by
  have hbound : underflowBound capacity ≤ capacity ∧ 2 * underflowBound capacity ≤ capacity + 1 := by
    unfold underflowBound at *; omega
  unfold balanceSubscripts
  simp only
  split
  · refine within_append.2 ⟨within_append.2 ⟨?_, within_loop ?_ ?_⟩, ?_⟩
    · simp only [within_cons, within_nil, and_true]
      omega
    · intro i hi
      have := mem_loopUp.1 hi
      omega
    · intro i hi
      have := mem_loopUp.1 hi
      omega
    · simp only [within_cons, within_nil, and_true]
      omega
  · split
    · refine within_append.2 ⟨within_append.2 ⟨within_loop ?_ ?_, ?_⟩, ?_⟩
      · intro i hi
        have := mem_loopDown.1 hi
        omega
      · intro i hi
        have := mem_loopDown.1 hi
        omega
      · simp only [within_cons, within_nil, and_true]
        omega
      · simp only [within_cons, within_nil, and_true]
        omega
    · refine within_loop ?_ ?_
      · intro i hi
        have := mem_loopUp.1 hi
        omega
      · intro i hi
        have := mem_loopUp.1 hi
        omega

end LeafNode

/-! ## §3. Inner nodes. -/

namespace InnerNode

/-- `locate_child_index`. -/
def locateChildSubscripts (n : InnerNode K) (key : K) : List Int :=
  if n.size = 0 then []
  else BinarySearch.probes (compareSlot key) n.slots (n.size + 1) 0 (n.size - 1)

/-- The split of a full node whose child at `position` was split, up to
`get_leftmost_key` of the new right node. -/
def splitInsertSubscripts (capacity : Nat) (n : InnerNode K) (position : Nat) (boundary_key : K) :
    List Int :=
  let start_index_for_right := capacity / 2
  let moved := n.size - start_index_for_right
  let right := { n with slots := n.slots.drop start_index_for_right }
  let left := { n with slots := n.slots.take (n.size - moved) }
  let host_for_node := if position < capacity / 2 then left else right
  (loopUp start_index_for_right n.size).flatMap (fun i : Int => [i - start_index_for_right, i])
    ++ host_for_node.locateChildSubscripts boundary_key
    ++ shiftUp host_for_node.size (host_for_node.locateChildIndex boundary_key + 1).toNat
    ++ [0]

/-- `balance`.  The first loop goes to `right->size_`, not to the element before. -/
def balanceSubscripts (capacity : Nat) (left right : InnerNode K) : List Int :=
  let underflow_bound := underflowBound capacity
  if left.size < underflow_bound ∧ underflow_bound < right.size then
    [(left.size : Int), 0] ++ (loopUp 0 right.size).flatMap (fun i => [i, i + 1]) ++ [0]
  else if right.size < underflow_bound ∧ underflow_bound < left.size then
    (loopDown right.size 0).flatMap (fun i => [i + 1, i]) ++ [0, (left.size : Int) - 1] ++ [0]
  else (loopUp 0 right.size).flatMap (fun i => [(left.size : Int) + i, i])

variable {capacity : Nat} {n left right : InnerNode K} {key : K}

theorem locateChildIndex_lt (n : InnerNode K) (key : K) :
    -1 ≤ n.locateChildIndex key ∧ n.locateChildIndex key < n.size := by
  unfold locateChildIndex
  split
  · rename_i h
    rw [h]
    exact ⟨le_rfl, by decide⟩
  · obtain ⟨h1, h2, h3⟩ := @BinarySearch.bsearch_between _ (compareSlot key) n.slots
      (n.size + 1) 0 ((n.size : Int) - 1) (by omega)
    simp only
    split
    · rename_i hf
      have := h3 hf
      omega
    · omega

theorem within_locateChild (hs : n.size ≤ capacity) :
    Within capacity (n.locateChildSubscripts key) := by
  unfold locateChildSubscripts
  split
  · exact within_nil
  · intro i hi
    have := BinarySearch.probes_between _ hi
    omega

theorem within_splitInsert (hcap : 2 ≤ capacity) (hs : n.size ≤ capacity) (position : Nat) :
    Within capacity (n.splitInsertSubscripts capacity position key) := by
  have hlen : n.slots.length = n.size := rfl
  unfold splitInsertSubscripts
  simp only
  -- the half that takes the new child has room
  set host := if position < capacity / 2
    then { n with slots := n.slots.take (n.size - (n.size - capacity / 2)) }
    else { n with slots := n.slots.drop (capacity / 2) } with hhost
  have hroom : host.size < capacity := by
    rw [hhost]
    split
    · simp only [size, List.length_take]
      omega
    · simp only [size, List.length_drop]
      omega
  have hidx := locateChildIndex_lt host key
  refine within_append.2 ⟨within_append.2 ⟨within_append.2 ⟨within_loop ?_ ?_, ?_⟩, ?_⟩, ?_⟩
  · intro i hi
    have := mem_loopUp.1 hi
    omega
  · intro i hi
    have := mem_loopUp.1 hi
    omega
  · exact within_locateChild hroom.le
  · exact within_shiftUp hroom (by omega)
  · simp only [within_cons, within_nil, and_true]
    omega

omit [LinearOrder K] in
theorem within_balance (hcap : 3 ≤ capacity) (hl : left.size ≤ capacity)
    (hr : right.size ≤ capacity)
    (hunder : left.size < underflowBound capacity ∨ right.size < underflowBound capacity)
    (hlend : left.size < underflowBound capacity → right.size < capacity) :
    Within capacity (left.balanceSubscripts capacity right) := by
  have hbound : underflowBound capacity < capacity ∧ 2 * underflowBound capacity ≤ capacity + 1 := by
    unfold underflowBound; omega
  unfold balanceSubscripts
  simp only
  split
  · rename_i hborrow
    have := hlend hborrow.1
    refine within_append.2 ⟨within_append.2 ⟨?_, within_loop ?_ ?_⟩, ?_⟩
    · simp only [within_cons, within_nil, and_true]
      omega
    · intro i hi
      have := mem_loopUp.1 hi
      omega
    · intro i hi
      have := mem_loopUp.1 hi
      omega
    · simp only [within_cons, within_nil, and_true]
      omega
  · split
    · refine within_append.2 ⟨within_append.2 ⟨within_loop ?_ ?_, ?_⟩, ?_⟩
      · intro i hi
        have := mem_loopDown.1 hi
        omega
      · intro i hi
        have := mem_loopDown.1 hi
        omega
      · simp only [within_cons, within_nil, and_true]
        omega
      · simp only [within_cons, within_nil, and_true]
        omega
    · refine within_loop ?_ ?_
      · intro i hi
        have := mem_loopUp.1 hi
        omega
      · intro i hi
        have := mem_loopUp.1 hi
        omega

omit [LinearOrder K] in
/-- Borrowing from a full right sibling reads one past the end of its arrays. -/
theorem innerBalance_full (hl : left.size < underflowBound capacity) (hr : right.size = capacity)
    (hb : underflowBound capacity < capacity) :
    (capacity : Int) ∈ left.balanceSubscripts capacity right := by
  unfold balanceSubscripts
  simp only
  rw [if_pos ⟨hl, by omega⟩]
  have hmem : ((capacity : Int) - 1) ∈ loopUp 0 right.size := mem_loopUp.2 (by omega)
  refine List.mem_append_left _ (List.mem_append_right _ (List.mem_flatMap.2 ⟨_, hmem, ?_⟩))
  simp

end InnerNode

/-! ## §4. The recursion over the nodes. -/

namespace Node

/-- `search`. -/
def searchSubscripts : Nat → Heap K V → BlkAddress → K → List Int
  | 0, _, _, _ => []
  | fuel + 1, h, a, k =>
      match h.cells a with
      | none => []
      | some (.leaf n) => n.searchSubscripts k
      | some (.inner n) =>
          let index := n.locateChildIndex k
          n.locateChildSubscripts k ++
            if index < 0 then []
            else
              match n.slots[index.toNat]? with
              | none => [index]
              | some (_, c) => index :: searchSubscripts fuel h c k ++ [index]

/-- `insert_with_split_support`. -/
def insertSubscripts (capacity : Nat) : Nat → Heap K V → BlkAddress → K → V → List Int
  | 0, _, _, _, _ => []
  | fuel + 1, h, a, k, v =>
      match h.cells a with
      | none => []
      | some (.leaf n) => n.insertWithSplitSubscripts capacity k
      | some (.inner n) =>
          let index := n.locateChildIndex k
          let n' := if index < 0 then n.setFirstKey k else n
          let target_node_index := (max 0 index).toNat
          n.locateChildSubscripts k ++ (if index < 0 then [0] else []) ++
            [(target_node_index : Int)] ++
            match n'.slots[target_node_index]? with
            | none => []
            | some (_, c) =>
                insertSubscripts capacity fuel (h.set a (.inner n')) c k v ++
                  match insertWithSplitSupport capacity fuel (h.set a (.inner n')) c k v with
                  | some (_, some (_, boundary)) =>
                      if n'.size < capacity then shiftUp n'.size (target_node_index + 1)
                      else n'.splitInsertSubscripts capacity target_node_index boundary
                  | _ => []

/-- `left_child->balance(right_child, boundary)`. -/
def balanceSubscripts (capacity : Nat) : Node K V × Node K V → List Int
  | (.leaf l, .leaf r) => l.balanceSubscripts capacity r
  | (.inner l, .inner r) => l.balanceSubscripts capacity r
  | _ => []

/-- The end of `InnerNode::delete_key`, from the choice of the two children on. -/
def rebalanceSubscripts (capacity : Nat) (h : Heap K V) (n : InnerNode K) (left_child_index : Nat) :
    List Int :=
  let left : Int := left_child_index
  let right : Int := left + 1
  match pairAt h n left_child_index with
  | none => [left, right]
  | some p =>
      [left, right] ++ balanceSubscripts capacity p ++
        match n.slots[left_child_index]?, n.slots[left_child_index + 1]? with
        | some (_, lc), some (_, rc) =>
            match balance capacity h lc rc with
            | some (_, some _) => [right, left, right]
            | some (_, none) =>
                [left, right] ++ (loopUp (right + 1) n.size).flatMap (fun i : Int => [i - 1, i])
            | none => []
        | _, _ => []

/-- `delete_key(k, underflow)`. -/
def deleteSubscripts (capacity : Nat) : Nat → Heap K V → BlkAddress → K → Bool → List Int
  | 0, _, _, _, _ => []
  | fuel + 1, h, a, k, underflow =>
      match h.cells a with
      | none => []
      | some (.leaf n) => n.deleteSubscripts k
      | some (.inner n) =>
          let child_index := n.locateChildIndex k
          n.locateChildSubscripts k ++
            if child_index < 0 then []
            else
              [child_index] ++
              match n.slots[child_index.toNat]? with
              | none => []
              | some (_, child) =>
                  deleteSubscripts capacity fuel h child k underflow ++
                    match deleteKey capacity fuel h child k underflow with
                    | none => []
                    | some (h, deleted, underflow) =>
                        if !deleted || (!underflow || n.size < 2) then [child_index]
                        else rebalanceSubscripts capacity h n (leftChildIndex child_index)

/-- An inner node that under-flows is not balanced with a full right sibling. -/
def LendsBelow (capacity : Nat) : Node K V × Node K V → Prop
  | (.inner l, .inner r) => l.size < underflowBound capacity → r.size < capacity
  | _ => True

instance (capacity : Nat) : DecidablePred (LendsBelow (K := K) (V := V) capacity) := by
  intro p
  unfold LendsBelow
  split <;> infer_instance

variable {capacity : Nat} {k : K} {v : V}

theorem within_search : ∀ (fuel : Nat) {h : Heap K V} {a : BlkAddress},
    (∀ {x n}, h.cells x = some n → n.size ≤ capacity) →
    Within capacity (searchSubscripts fuel h a k) := by
  intro fuel
  induction fuel with
  | zero => intro h a _; exact within_nil
  | succ fuel ih =>
      intro h a hsize
      unfold searchSubscripts
      split
      · exact within_nil
      · rename_i n hn
        exact LeafNode.within_search (hsize hn)
      · rename_i n hn
        have hn' : n.size ≤ capacity := hsize hn
        have hidx := InnerNode.locateChildIndex_lt n k
        refine within_append.2 ⟨InnerNode.within_locateChild hn', ?_⟩
        split
        · exact within_nil
        · split
          · simp only [within_cons, within_nil, and_true]
            omega
          · simp only [within_append, within_cons, within_nil, and_true]
            exact ⟨⟨by omega, ih hsize⟩, by omega⟩

theorem within_insert (hcap : 2 ≤ capacity) : ∀ (fuel : Nat) {h : Heap K V} {a : BlkAddress},
    (∀ {x n}, h.cells x = some n → n.size ≤ capacity) →
    Within capacity (insertSubscripts capacity fuel h a k v) := by
  intro fuel
  induction fuel with
  | zero => intro h a _; exact within_nil
  | succ fuel ih =>
      intro h a hsize
      unfold insertSubscripts
      split
      · exact within_nil
      · rename_i n hn
        exact LeafNode.within_insertWithSplit hcap (hsize hn)
      · rename_i n hn
        have hn' : n.size ≤ capacity := hsize hn
        have hidx := InnerNode.locateChildIndex_lt n k
        simp only
        set n' := if n.locateChildIndex k < 0 then n.setFirstKey k else n with hcur
        have hlen : n'.size = n.size := by
          rw [hcur]
          split
          · simp [InnerNode.setFirstKey, InnerNode.size]
          · rfl
        have hsize' : ∀ {x m}, (h.set a (.inner n')).cells x = some m → m.size ≤ capacity := by
          intro x m hm
          by_cases hx : x = a
          · subst hx
            rw [show m = .inner n' by simpa [Heap.set, eq_comm] using hm]
            exact hlen.trans_le hn'
          · exact hsize (by simpa [Heap.set, Function.update_of_ne hx] using hm)
        refine within_append.2 ⟨within_append.2 ⟨within_append.2
          ⟨InnerNode.within_locateChild hn', ?_⟩, ?_⟩, ?_⟩
        · split
          · simp only [within_cons, within_nil, and_true]
            omega
          · exact within_nil
        · simp only [within_cons, within_nil, and_true]
          omega
        · split
          · exact within_nil
          · rename_i c hc
            have htarget : (max 0 (n.locateChildIndex k)).toNat < n'.size :=
              (List.getElem?_eq_some_iff.1 hc).1
            refine within_append.2 ⟨ih hsize', ?_⟩
            split
            · split
              · exact within_shiftUp (by omega) (by omega)
              · exact InnerNode.within_splitInsert hcap (by omega) _
            · exact within_nil

omit [LinearOrder K] in
/-- The two children that are balanced are in the arrays, and so is what
`balance` reads and writes. -/
theorem within_rebalance (hcap : 3 ≤ capacity) {h : Heap K V} {n : InnerNode K} {index : Nat}
    {c lc rc : BlkAddress} {nl nr : Node K V} (hn : n.size ≤ capacity)
    (hbal : Balancing capacity h n index c lc rc nl nr) (hlend : LendsBelow capacity (nl, nr)) :
    Within capacity (rebalanceSubscripts capacity h n index) := by
  have hbound : 2 ≤ underflowBound capacity := VanillaBPlusTree.two_le_underflowBound hcap
  have hpair := hbal.pairAt_eq
  obtain ⟨kl', b', hleft, hright⟩ := hbal.getElem?
  have hunder := hbal.under
  have hsl := hbal.left_le
  have hsr := hbal.right_le
  obtain ⟨xs, kl, b, ys, hslots, rfl⟩ := hbal.slots
  have hsize : n.size = xs.length + ys.length + 2 := by
    unfold InnerNode.size
    rw [hslots]
    simp only [List.length_append, List.length_cons]
    omega
  unfold rebalanceSubscripts
  simp only [hpair, hleft, hright]
  refine within_append.2 ⟨within_append.2 ⟨?_, ?_⟩, ?_⟩
  · simp only [within_cons, within_nil, and_true]
    omega
  · match nl, nr, hlend with
    | .leaf l, .leaf r, _ => exact LeafNode.within_balance hbound hsl hsr hunder
    | .inner l, .inner r, hlend => exact InnerNode.within_balance hcap hsl hsr hunder hlend
    | .leaf l, .inner r, _ => exact within_nil
    | .inner l, .leaf r, _ => exact within_nil
  · split
    · simp only [within_cons, within_nil, and_true]
      omega
    · refine within_append.2 ⟨?_, within_loop ?_ ?_⟩
      · simp only [within_cons, within_nil, and_true]
        omega
      · intro i hi
        have := mem_loopUp.1 hi
        omega
      · intro i hi
        have := mem_loopUp.1 hi
        omega
    · exact within_nil

variable {G : Plan K BlkAddress} {row : List (K × BlkAddress)} {depth : Nat} {κ : K}
  {m : K → Option V} {h : Heap K V}

/-- **The subscripts of `delete_key`**, from any node of a tree, by induction over
the levels. -/
theorem within_delete (hcap : 3 ≤ capacity) (hT : IsTree capacity h G row depth κ m) :
    ∀ (fuel : Nat) {a : BlkAddress} {sp : Span K} {u : Bool}, sp.level ≤ fuel → G a = some sp →
      sp.Has k → (∀ p ∈ balancedPairs capacity fuel h a k u, LendsBelow capacity p) →
      Within capacity (deleteSubscripts capacity fuel h a k u) := by
  intro fuel
  induction fuel with
  | zero => intro a sp u _ _ _ _; exact within_nil
  | succ fuel ih =>
      intro a sp u hfuel hG hk hlend
      obtain ⟨node, hnode, hE⟩ := Heap.cell_of_plan hT.tree hG
      cases node with
      | leaf n =>
          have hn : n.size ≤ capacity := hT.ok.size_le hnode
          unfold deleteSubscripts
          simp only [hnode]
          exact LeafNode.within_delete hn
      | inner n =>
          have hn : n.size ≤ capacity := hT.ok.size_le hnode
          unfold deleteSubscripts
          unfold balancedPairs at hlend
          simp only [hnode] at hlend ⊢
          have hlt := InnerNode.locateChildIndex_lt n k
          refine within_append.2 ⟨InnerNode.within_locateChild hn, ?_⟩
          rcases InnerNode.locateChildIndex_cases k (hT.tree.innerOk hG hE).sorted with
            ⟨hidx, -⟩ | ⟨xs, ki, c, ys, hslots, hidx, hki, hys⟩
          · rw [if_pos (by rw [hidx]; decide)]
            exact within_nil
          have hneg : ¬ n.locateChildIndex k < 0 := by rw [hidx]; omega
          have hpos : n.slots[(n.locateChildIndex k).toNat]? = some (ki, c) := by
            rw [hidx, hslots]; exact ListSplit.getElem?_at
          have hE' : h.store a = some (.inner (xs ++ (ki, c) :: ys)) := by
            rw [hE, Node.shape, hslots]
          obtain ⟨sc, hc, hlc, hkc⟩ := hT.tree.locate hG hE' hk (fun _ => hki) hys
          obtain ⟨h1, d, u1, heq, hdel⟩ :=
            delete_spec (VanillaBPlusTree.two_le_underflowBound hcap) hT fuel u (by omega) hc hkc
          simp only [hneg, if_false, hpos, heq] at hlend ⊢
          refine within_append.2 ⟨?_, within_append.2 ⟨ih (by omega) hc hkc
            (fun p hp => hlend p (List.mem_append_left _ hp)), ?_⟩⟩
          · simp only [within_cons, within_nil, and_true]
            omega
          split
          · simp only [within_cons, within_nil, and_true]
            omega
          · rename_i hstop
            rw [if_neg hstop] at hlend
            have hflags : d = true ∧ u1 = true ∧ 2 ≤ n.slots.length := by
              simp only [Bool.or_eq_true, Bool.not_eq_true', decide_eq_true_eq, not_or,
                Bool.not_eq_false, not_lt] at hstop
              exact hstop
            obtain ⟨rfl, rfl, hwide⟩ := hflags
            obtain ⟨lc, rc, nl, nr, hbal, -⟩ := balancing hG hnode hslots hidx hlc hdel hwide
            have hpair := hbal.pairAt_eq
            refine within_rebalance hcap hn hbal (hlend (nl, nr) (List.mem_append_right _ ?_))
            simp [hpair]

end Node

/-! ## §5. Calls and runs. -/

namespace VanillaBPlusTree

/-- `insert`, up to the constructor of a new root. -/
def insertSubscripts (capacity : Nat) (t : VanillaBPlusTree K V) (k : K) (v : V) : List Int :=
  Node.insertSubscripts capacity t.depth t.heap t.root k v ++
    match Node.insertWithSplitSupport capacity t.depth t.heap t.root k v with
    | some (_, some _) => [0, 0, 0, 1, 1]
    | _ => []

/-- `delete_key`, up to `child_[0]` of a root that is left with one child. -/
def deleteSubscripts (capacity : Nat) (t : VanillaBPlusTree K V) (k : K) : List Int :=
  Node.deleteSubscripts capacity t.depth t.heap t.root k false ++
    match Node.deleteKey capacity t.depth t.heap t.root k false with
    | some (h, _, true) =>
        match h.cells t.root with
        | some (.inner ⟨_, [_], _⟩) => [0, 0]
        | _ => []
    | _ => []

/-- The subscripts that a call evaluates. -/
def subscripts (capacity : Nat) (t : VanillaBPlusTree K V) : Call K V → List Int
  | .insert k v => t.insertSubscripts capacity k v
  | .deleteKey k => t.deleteSubscripts capacity k
  | .search k => Node.searchSubscripts t.depth t.heap t.root k

/-- In this call no inner node borrows from a full right sibling. -/
def LendsBelow (capacity : Nat) (t : VanillaBPlusTree K V) : Call K V → Prop
  | .deleteKey k =>
      ∀ p ∈ Node.balancedPairs capacity t.depth t.heap t.root k false, Node.LendsBelow capacity p
  | _ => True

/-- The subscripts of a sequence of calls, as far as it returns. -/
def runSubscripts (capacity : Nat) : VanillaBPlusTree K V → List (Call K V) → List Int
  | _, [] => []
  | t, c :: cs =>
      t.subscripts capacity c ++
        match t.call capacity c with
        | none => []
        | some (t, _) => runSubscripts capacity t cs

/-- In none of the calls an inner node borrows from a full right sibling. -/
def RunLendsBelow (capacity : Nat) : VanillaBPlusTree K V → List (Call K V) → Prop
  | _, [] => True
  | t, c :: cs => t.LendsBelow capacity c ∧
      match t.call capacity c with
      | none => True
      | some (t, _) => RunLendsBelow capacity t cs

instance (capacity : Nat) (t : VanillaBPlusTree K V) (c : Call K V) :
    Decidable (t.LendsBelow capacity c) := by
  unfold LendsBelow
  split <;> infer_instance

instance decidableRunLendsBelow (capacity : Nat) (t : VanillaBPlusTree K V) (cs : List (Call K V)) :
    Decidable (RunLendsBelow capacity t cs) := by
  induction cs generalizing t with
  | nil => exact isTrue trivial
  | cons c cs ih =>
      unfold RunLendsBelow
      split
      · infer_instance
      · exact @instDecidableAnd _ _ _ (ih _)

variable {capacity : Nat} {t : VanillaBPlusTree K V} {m : K → Option V} {G : Plan K BlkAddress}
  {κ : K}

/-- One call keeps to the arrays. -/
theorem Inv.within (hcap : 3 ≤ capacity) (h : t.Inv capacity m G κ) {c : Call K V}
    (hlend : t.LendsBelow capacity c) : Within capacity (t.subscripts capacity c) := by
  have hsize : ∀ {x n}, t.heap.cells x = some n → n.size ≤ capacity := h.ok.size_le
  cases c with
  | insert k v =>
      refine within_append.2 ⟨Node.within_insert (by omega) t.depth hsize, ?_⟩
      split
      · simp only [within_cons, within_nil, and_true]
        omega
      · exact within_nil
  | deleteKey k =>
      refine within_append.2 ⟨Node.within_delete hcap ⟨h.tree, h.ok, h.edge, h.map⟩ t.depth le_rfl
        h.plan_root ⟨bot_le, key_lt_top k⟩ hlend, ?_⟩
      split
      · split
        · simp only [within_cons, within_nil, and_true]
          omega
        · exact within_nil
      · exact within_nil
  | search k => exact Node.within_search t.depth hsize

/-- A run keeps to the arrays, from any tree that satisfies the invariant. -/
theorem Inv.run_within (hcap : 3 ≤ capacity) (cs : List (Call K V)) :
    ∀ {t : VanillaBPlusTree K V} {m : K → Option V} {G : Plan K BlkAddress} {κ : K},
      t.Inv capacity m G κ → RunLendsBelow capacity t cs →
      Within capacity (runSubscripts capacity t cs) := by
  induction cs with
  | nil => intro t m G κ _ _; exact within_nil
  | cons c cs ih =>
      intro t m G κ h hlend
      obtain ⟨t', G', κ', hcall, h'⟩ := call_inv hcap h c
      refine within_append.2 ⟨h.within hcap hlend.1, ?_⟩
      obtain ⟨-, hlend⟩ := hlend
      simp only [hcall] at hlend ⊢
      exact ih h' hlend

/-- **No subscript leaves its array** along a run in which no inner node borrows
from a right sibling that holds `CAPACITY` children. -/
theorem run_subscripts (hcap : 3 ≤ capacity) (cs : List (Call K V))
    (hlend : RunLendsBelow capacity init cs) :
    Within capacity (runSubscripts capacity (init : VanillaBPlusTree K V) cs) := by
  cases isEmpty_or_nonempty K with
  | inl hK =>
      cases cs with
      | nil => exact within_nil
      | cons c cs => cases c <;> exact hK.elim ‹K›
  | inr hK =>
      obtain ⟨κ⟩ := hK
      exact Inv.run_within hcap cs (init_inv κ) hlend

/-- A run that splits the root, merges two leaves and collapses the root again. -/
theorem run_subscripts_three :
    Within 3 (runSubscripts 3 (init : VanillaBPlusTree Nat Nat)
      [.insert 1 10, .insert 2 20, .insert 3 30, .insert 4 40, .deleteKey 4, .deleteKey 3]) :=
  run_subscripts le_rfl _ (by decide)

/-- Six insertions and one deletion at the smallest capacity: the left one of two
inner nodes borrows from the right one, which has three children, and `key_[3]`
is read. -/
theorem run_subscripts_full :
    (3 : Int) ∈ runSubscripts 3 (init : VanillaBPlusTree Nat Nat)
      [.insert 1 10, .insert 2 20, .insert 3 30, .insert 4 40, .insert 5 50, .insert 6 60,
        .deleteKey 1] := by
  decide

end VanillaBPlusTree

end NvmTree
