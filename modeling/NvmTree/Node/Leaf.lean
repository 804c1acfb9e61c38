/-
  NvmTree.Node.Leaf — `LeafNode`: search, insert with split, delete, balance.

  `entries` is `entries_[0 .. size_)`, so `size_` is its length; the shift and
  move loops of the source are the list operations they compute.  A null
  `right_sibling_` (-1) is `none`.

  Main results (for sorted entries):
    * `searchKeyPosition_eq` — the binary search finds the place of the key.
    * `insertWithSplitSupport_cases` — the node keeps the updated entries, or
      it is full and the updated entries are divided between it and the new
      right node, both non-empty and within the capacity.
    * `deleteKey_cases`, `balanceEntries_cases` — the same for deletion and
      balancing.
-/
import NvmTree.Lib.BinarySearch
import NvmTree.Lib.ListSplit
import NvmTree.RangeTree.Entries

namespace NvmTree

open RangeTree

/-- The address of a block, or of a node in memory. -/
abbrev BlkAddress := Nat

/-- `UNDERFLOW_BOUND(N)`. -/
def underflowBound (capacity : Nat) : Nat := (capacity + 1) / 2

/-- What `balance` does to the contents of two neighbours, for leaves and inner
nodes alike: an entry is borrowed from the right or from the left, and the
boundary is then the first key of the right node; otherwise the contents of
the right node go to the left one. -/
def balanceEntries {K β : Type*} (capacity : Nat) (left right : List (K × β)) :
    List (K × β) × List (K × β) × Option K :=
  let underflow_bound := underflowBound capacity
  match decide (left.length < underflow_bound ∧ underflow_bound < right.length), right with
  | true, e :: rest => (left ++ [e], rest, some (rest.headD e).1)
  | _, _ =>
      match decide (right.length < underflow_bound ∧ underflow_bound < left.length),
        left.getLast? with
      | true, some e => (left.dropLast, e :: right, some e.1)
      | _, _ => (left ++ right, [], none)

/-- **Balancing** moves one entry over, or merges; merging keeps within the
capacity when one of the two under-flows. -/
theorem balanceEntries_cases {K β : Type*} {capacity : Nat} (hcap : 0 < underflowBound capacity)
    (left right : List (K × β)) :
    (∃ e e' rest, right = e :: e' :: rest
        ∧ left.length < underflowBound capacity ∧ underflowBound capacity < right.length
        ∧ balanceEntries capacity left right = (left ++ [e], e' :: rest, some e'.1))
      ∨ (∃ init e, left = init ++ [e] ∧ init ≠ []
        ∧ right.length < underflowBound capacity ∧ underflowBound capacity < left.length
        ∧ balanceEntries capacity left right = (init, e :: right, some e.1))
      ∨ (((left.length < underflowBound capacity ∨ right.length < underflowBound capacity) →
          left.length + right.length ≤ capacity)
        ∧ balanceEntries capacity left right = (left ++ right, [], none)) := by
  unfold balanceEntries
  by_cases hA : left.length < underflowBound capacity ∧ underflowBound capacity < right.length
  · left
    match right with
    | [] => simp at hA
    | [e] => simp only [List.length_cons, List.length_nil] at hA; omega
    | e :: e' :: rest =>
        exact ⟨e, e', rest, rfl, hA.1, hA.2, by simp only [hA, and_self, decide_true]; simp⟩
  · right
    by_cases hB : right.length < underflowBound capacity ∧ underflowBound capacity < left.length
    · left
      have hne : left ≠ [] := by rintro rfl; simp at hB
      obtain ⟨init, e, rfl⟩ : ∃ init e, left = init ++ [e] :=
        ⟨left.dropLast, left.getLast hne, (List.dropLast_concat_getLast hne).symm⟩
      refine ⟨init, e, rfl, ?_, hB.1, hB.2, ?_⟩
      · rintro rfl
        simp only [List.nil_append, List.length_cons, List.length_nil] at hB
        omega
      · simp only [hA, hB, decide_false]
        simp
    · right
      refine ⟨?_, by simp [hA, hB]⟩
      unfold underflowBound at *
      omega

structure LeafNode (K V : Type*) where
  selfRep : BlkAddress
  rightSibling : Option BlkAddress
  entries : List (K × V)
  modified : Bool
  deriving Repr, DecidableEq

namespace LeafNode

variable {K V : Type*} [LinearOrder K]

/-! ## §1. The operations. -/

/-- The constructor, with a newly allocated address. -/
def new (selfRep : BlkAddress) : LeafNode K V := ⟨selfRep, none, [], false⟩

def size (n : LeafNode K V) : Nat := n.entries.length

/-- How the loop of `search_key_position` compares an entry with `key`. -/
def compareEntry (key : K) (e : K × V) : Ordering :=
  if e.1 < key then .lt else if e.1 = key then .eq else .gt

def searchKeyPosition (n : LeafNode K V) (key : K) : Bool × Nat :=
  let r := BinarySearch.bsearch (compareEntry key) n.entries (n.size + 1) 0 (n.size - 1)
  (r.1, r.2.toNat)

/-- `search`: the value of `key`, if it is found. -/
def search (n : LeafNode K V) (key : K) : Option V :=
  match n.searchKeyPosition key with
  | (true, position) => (n.entries[position]?).map Prod.snd
  | (false, _) => none

/-- `insert`: `false` when the key is new and there is no room. -/
def insert (capacity : Nat) (n : LeafNode K V) (key : K) (val : V) : LeafNode K V × Bool :=
  let n := { n with modified := true }
  match n.searchKeyPosition key with
  | (true, position) =>
      ({ n with entries := n.entries.modify position (fun e => (e.1, val)) }, true)
  | (false, position) =>
      if capacity ≤ n.size then (n, false)
      else ({ n with entries := n.entries.insertIdx position (key, val) }, true)

/-- `insert_with_split_support`: the node, and on a split the new right node
(at the address `rightRep`) with the boundary key. -/
def insertWithSplitSupport (capacity : Nat) (n : LeafNode K V) (key : K) (val : V)
    (rightRep : BlkAddress) : LeafNode K V × Option (LeafNode K V × K) :=
  let n := { n with modified := true }
  match n.searchKeyPosition key with
  | (true, position) =>
      ({ n with entries := n.entries.modify position (fun e => (e.1, val)) }, none)
  | (false, position) =>
      if n.size < capacity then
        ({ n with entries := n.entries.insertIdx position (key, val) }, none)
      else
        let moved := capacity - capacity / 2
        let right : LeafNode K V :=
          { selfRep := rightRep
            rightSibling := n.rightSibling
            entries := (n.entries.drop (capacity / 2)).take moved
            modified := true }
        let left :=
          { n with entries := n.entries.take (n.size - moved), rightSibling := some rightRep }
        let (left, right) :=
          if position < capacity / 2 then ((left.insert capacity key val).1, right)
          else (left, (right.insert capacity key val).1)
        -- `right->entries_[0].key`; the right half of a full node is not empty
        (left, some (right, (right.entries.headD (key, val)).1))

/-- `delete_key(k, underflow)`: whether the key was there, and whether the node
under-flows after the deletion. -/
def deleteKey (capacity : Nat) (n : LeafNode K V) (key : K) (underflow : Bool) :
    LeafNode K V × Bool × Bool :=
  match n.searchKeyPosition key with
  | (false, _) => (n, false, underflow)
  | (true, position) =>
      let n := { n with entries := n.entries.eraseIdx position, modified := true }
      (n, true, decide (n.size < underflowBound capacity))

/-- `balance`: the two nodes, and the new boundary when they were not merged.
A merge hands the right sibling over. -/
def balance (capacity : Nat) (left right : LeafNode K V) :
    LeafNode K V × LeafNode K V × Option K :=
  let (l, r, boundary) := balanceEntries capacity left.entries right.entries
  ({ left with
      entries := l
      rightSibling := if boundary.isNone then right.rightSibling else left.rightSibling
      modified := true },
    { right with entries := r, modified := true }, boundary)

/-! ## §2. The binary search. -/

variable {n : LeafNode K V} {key : K} {val : V}

/-- **The search finds the place of the key.** -/
theorem searchKeyPosition_eq {lts mid gts : List (K × V)} (he : n.entries = lts ++ mid ++ gts)
    (h1 : ∀ e ∈ lts, e.1 < key) (h2 : ∀ e ∈ mid, e.1 = key) (h3 : ∀ e ∈ gts, key < e.1)
    (h4 : mid.length ≤ 1) :
    n.searchKeyPosition key = (decide (mid ≠ []), lts.length) := by
  have e1 : ∀ e ∈ lts, compareEntry key e = .lt := fun e hm => by simp [compareEntry, h1 e hm]
  have e2 : ∀ e ∈ mid, compareEntry key e = .eq := fun e hm => by simp [compareEntry, h2 e hm]
  have e3 : ∀ e ∈ gts, compareEntry key e = .gt := by
    intro e hm
    have hlt := h3 e hm
    simp [compareEntry, hlt.ne', not_lt.2 hlt.le]
  have hlen : (lts ++ mid ++ gts).length = lts.length + mid.length + gts.length := by
    simp only [List.length_append]
  unfold searchKeyPosition size
  rw [he, BinarySearch.bsearch_eq e1 e2 e3 h4 _ 0 _ (by omega) (by omega) (by omega) (by omega)
    (by omega)]
  simp

theorem search_eq_some (hs : SortedKeys n.entries) :
    n.search key = some val ↔ (key, val) ∈ n.entries := by
  obtain ⟨lts, mid, gts, he, h1, h2, h3, h4⟩ := hs.locate key
  unfold search
  rw [searchKeyPosition_eq he h1 h2 h3 h4, he]
  have hnot : ∀ l : List (K × V), (∀ e ∈ l, e.1 ≠ key) → (key, val) ∉ l :=
    fun l hl hm => hl _ hm rfl
  have hl := hnot lts (fun e hm => (h1 e hm).ne)
  have hg := hnot gts (fun e hm => (h3 e hm).ne')
  rcases eq_nil_or_singleton h4 with rfl | ⟨⟨k, v⟩, rfl⟩
  · simp [hl, hg]
  · have hk : k = key := h2 (k, v) (by simp)
    subst hk
    simp [hl, hg, eq_comm]

/-! ## §3. Insertion. -/

/-- `insert` sets the entry, when the key is there or there is room. -/
theorem insert_eq {capacity : Nat} {lts mid gts : List (K × V)}
    (he : n.entries = lts ++ mid ++ gts) (h1 : ∀ e ∈ lts, e.1 < key)
    (h2 : ∀ e ∈ mid, e.1 = key) (h3 : ∀ e ∈ gts, key < e.1) (h4 : mid.length ≤ 1)
    (hroom : mid ≠ [] ∨ n.size < capacity) :
    n.insert capacity key val
      = ({ n with entries := lts ++ (key, val) :: gts, modified := true }, true) := by
  obtain ⟨rep, sib, es, md⟩ := n
  simp only at he
  subst he
  have hpos : (⟨rep, sib, lts ++ mid ++ gts, true⟩ : LeafNode K V).searchKeyPosition key
      = (decide (mid ≠ []), lts.length) := searchKeyPosition_eq rfl h1 h2 h3 h4
  unfold insert
  simp only [hpos]
  rcases eq_nil_or_singleton h4 with rfl | ⟨⟨k, v⟩, rfl⟩
  · have hlt : (lts ++ [] ++ gts).length < capacity := by simpa [size] using hroom
    simp only [ne_eq, not_true_eq_false, decide_false, size, List.append_nil] at hlt ⊢
    rw [if_neg (not_le.2 hlt), ListSplit.insertIdx_at]
  · have hk : k = key := h2 (k, v) (by simp)
    subst hk
    simp [ListSplit.modify_at]

/-- The node after an insertion that needs no split. -/
def withEntry (n : LeafNode K V) (key : K) (val : V) : LeafNode K V :=
  { n with entries := setEntry key val n.entries, modified := true }

/-- **`insert` into a node with room.** -/
theorem insert_of_room (key : K) (val : V) {capacity : Nat} (hs : SortedKeys n.entries) (hroom : n.size < capacity) :
    n.insert capacity key val = (n.withEntry key val, true)
      ∧ (setEntry key val n.entries).length ≤ capacity := by
  obtain ⟨lts, mid, gts, he, h1, h2, h3, h4⟩ := hs.locate key
  have hset : setEntry key val n.entries = lts ++ (key, val) :: gts := by
    rw [he]
    exact setEntry_eq h1 h2 h3
  rw [insert_eq he h1 h2 h3 h4 (.inr hroom), withEntry, hset]
  refine ⟨rfl, ?_⟩
  rw [size, he] at hroom
  simp only [List.length_append, List.length_cons] at hroom ⊢
  omega

/-- A full node is cut in the middle, and the new entry goes to the half where
its place is. -/
theorem split_halves {capacity : Nat} {lts gts : List (K × V)} (rep rightRep : BlkAddress)
    (sib sib' : Option BlkAddress) (hfull : (lts ++ gts).length = capacity) (hcap : 2 ≤ capacity)
    (h1 : ∀ e ∈ lts, e.1 < key) (h3 : ∀ e ∈ gts, key < e.1) :
    ∃ L R,
      (if lts.length < capacity / 2 then
          (((⟨rep, sib, (lts ++ gts).take (capacity / 2), true⟩ : LeafNode K V).insert
              capacity key val).1,
            (⟨rightRep, sib', (lts ++ gts).drop (capacity / 2), true⟩ : LeafNode K V))
        else
          (⟨rep, sib, (lts ++ gts).take (capacity / 2), true⟩,
            ((⟨rightRep, sib', (lts ++ gts).drop (capacity / 2), true⟩ : LeafNode K V).insert
              capacity key val).1))
        = (⟨rep, sib, L, true⟩, ⟨rightRep, sib', R, true⟩)
      ∧ L ++ R = lts ++ (key, val) :: gts ∧ L ≠ [] ∧ R ≠ []
      ∧ L.length ≤ capacity ∧ R.length ≤ capacity := by
  have hlen : lts.length + gts.length = capacity := by simpa using hfull
  by_cases hpos : lts.length < capacity / 2
  · have htake : (lts ++ gts).take (capacity / 2)
        = lts ++ [] ++ gts.take (capacity / 2 - lts.length) := by
      rw [List.take_append, List.take_of_length_le (by omega), List.append_nil]
    have hdrop : (lts ++ gts).drop (capacity / 2) = gts.drop (capacity / 2 - lts.length) := by
      rw [List.drop_append, List.drop_eq_nil_of_le (by omega), List.nil_append]
    refine ⟨lts ++ (key, val) :: gts.take (capacity / 2 - lts.length),
      gts.drop (capacity / 2 - lts.length), ?_, ?_, by simp, ?_, ?_, ?_⟩
    · rw [if_pos hpos, insert_eq htake h1 (by simp) (fun e he => h3 e (List.mem_of_mem_take he))
        (by simp) (Or.inr ?_)]
      · rw [hdrop]
      · simp only [size, List.length_take, List.length_append]
        omega
    · simp
    · intro hnil
      have := congrArg List.length hnil
      simp only [List.length_drop, List.length_nil] at this
      omega
    · simp only [List.length_append, List.length_cons, List.length_take]
      omega
    · simp only [List.length_drop]
      omega
  · have htake : (lts ++ gts).take (capacity / 2) = lts.take (capacity / 2) := by
      rw [List.take_append_of_le_length (by omega)]
    have hdrop : (lts ++ gts).drop (capacity / 2) = lts.drop (capacity / 2) ++ [] ++ gts := by
      rw [List.drop_append_of_le_length (by omega), List.append_nil]
    refine ⟨lts.take (capacity / 2), lts.drop (capacity / 2) ++ (key, val) :: gts, ?_, ?_, ?_,
      by simp, ?_, ?_⟩
    · rw [if_neg hpos, insert_eq hdrop (fun e he => h1 e (List.mem_of_mem_drop he)) (by simp) h3
        (by simp) (Or.inr ?_)]
      · rw [htake]
      · simp only [size, List.length_drop, List.length_append]
        omega
    · rw [← List.append_assoc, List.take_append_drop]
    · intro hnil
      have := congrArg List.length hnil
      simp only [List.length_take, List.length_nil] at this
      omega
    · simp only [List.length_take]
      omega
    · simp only [List.length_append, List.length_cons, List.length_drop]
      omega

/-- A leaf that is not split keeps its address. -/
theorem insertWithSplitSupport_selfRep {capacity : Nat} {key : K} {val : V} {rightRep : BlkAddress}
    {n' : LeafNode K V} (h : n.insertWithSplitSupport capacity key val rightRep = (n', none)) :
    n'.selfRep = n.selfRep := by
  unfold insertWithSplitSupport at h
  dsimp only at h
  split at h
  · cases h
    rfl
  · split at h
    · cases h
      rfl
    · cases h

/-- **`insert_with_split_support`.**  The node keeps the updated entries, or it
is full and they are divided between it and the new right node. -/
theorem insertWithSplitSupport_cases (key : K) (val : V) {capacity : Nat}
    (hs : SortedKeys n.entries)
    (hcap : 2 ≤ capacity) (hsize : n.size ≤ capacity) (rightRep : BlkAddress) :
    (n.insertWithSplitSupport capacity key val rightRep = (n.withEntry key val, none)
        ∧ (setEntry key val n.entries).length ≤ capacity)
      ∨ ∃ L b v R, n.insertWithSplitSupport capacity key val rightRep
          = (⟨n.selfRep, some rightRep, L, true⟩,
              some (⟨rightRep, n.rightSibling, (b, v) :: R, true⟩, b))
        ∧ L ++ (b, v) :: R = setEntry key val n.entries ∧ L ≠ []
        ∧ L.length ≤ capacity ∧ R.length + 1 ≤ capacity ∧ n.size = capacity := by
  obtain ⟨lts, mid, gts, he, h1, h2, h3, h4⟩ := hs.locate key
  obtain ⟨rep, sib, es, md⟩ := n
  simp only at he
  subst he
  have hpos : (⟨rep, sib, lts ++ mid ++ gts, true⟩ : LeafNode K V).searchKeyPosition key
      = (decide (mid ≠ []), lts.length) := searchKeyPosition_eq rfl h1 h2 h3 h4
  have hset : setEntry key val (lts ++ mid ++ gts) = lts ++ (key, val) :: gts :=
    setEntry_eq h1 h2 h3
  unfold insertWithSplitSupport withEntry
  simp only [hpos, hset, size] at hsize ⊢
  rcases eq_nil_or_singleton h4 with rfl | ⟨⟨k, v⟩, rfl⟩
  · simp only [ne_eq, not_true_eq_false, decide_false, List.append_nil] at hsize ⊢
    by_cases hroom : (lts ++ gts).length < capacity
    · left
      rw [if_pos hroom, ListSplit.insertIdx_at]
      refine ⟨rfl, ?_⟩
      simp only [List.length_append, List.length_cons] at hroom ⊢
      omega
    · right
      have hfull : (lts ++ gts).length = capacity := by omega
      have hhalf : capacity - (capacity - capacity / 2) = capacity / 2 := by omega
      have htake : ((lts ++ gts).drop (capacity / 2)).take (capacity - capacity / 2)
          = (lts ++ gts).drop (capacity / 2) := by
        rw [List.take_of_length_le]
        simp only [List.length_drop, List.length_append] at hfull ⊢
        omega
      rw [if_neg hroom, hfull, hhalf, htake]
      obtain ⟨L, R, heq, happ, hL, hR, hlL, hlR⟩ := 
        split_halves rep rightRep (some rightRep) sib hfull hcap h1 h3
      obtain ⟨⟨b, v⟩, R', rfl⟩ := List.exists_cons_of_ne_nil hR
      refine ⟨L, b, v, R', ?_, happ, hL, hlL, hlR, rfl⟩
      simp only [heq]
      simp
  · have hk : k = key := h2 (k, v) (by simp)
    subst hk
    left
    refine ⟨by simp [ListSplit.modify_at], ?_⟩
    simpa using hsize

/-! ## §4. Deletion. -/

/-- **`delete_key`**: the key is removed, or it was not there. -/
theorem deleteKey_cases (key : K) (capacity : Nat) (hs : SortedKeys n.entries) (underflow : Bool) :
    (∃ v, (key, v) ∈ n.entries
        ∧ (eraseEntry key n.entries).length + 1 = n.size
        ∧ n.deleteKey capacity key underflow
          = ({ n with entries := eraseEntry key n.entries, modified := true }, true,
              decide ((eraseEntry key n.entries).length < underflowBound capacity)))
      ∨ ((∀ e ∈ n.entries, e.1 ≠ key) ∧ n.deleteKey capacity key underflow
          = (n, false, underflow)) := by
  obtain ⟨lts, mid, gts, he, h1, h2, h3, h4⟩ := hs.locate key
  have hpos := searchKeyPosition_eq he h1 h2 h3 h4
  unfold deleteKey
  rw [hpos]
  rcases eq_nil_or_singleton h4 with rfl | ⟨⟨k, v⟩, rfl⟩
  · right
    refine ⟨?_, by simp⟩
    intro e hm
    rw [he] at hm
    rcases List.mem_append.1 hm with hm | hm
    · exact (h1 e (by simpa using hm)).ne
    · exact (h3 e hm).ne'
  · left
    have hk : k = key := h2 (k, v) (by simp)
    subst hk
    have herase : eraseEntry k n.entries = lts ++ gts := by
      rw [he]; exact eraseEntry_eq h1 h2 h3
    have hidx : n.entries.eraseIdx lts.length = lts ++ gts := by
      rw [he, List.append_assoc]; exact ListSplit.eraseIdx_at
    refine ⟨v, by rw [he]; simp, ?_, ?_⟩
    · rw [herase]
      simp only [size, he, List.length_append, List.length_cons, List.length_nil]
      omega
    · simp only [ne_eq, List.cons_ne_self, not_false_eq_true, decide_true, hidx, herase, size]

end LeafNode

end NvmTree
