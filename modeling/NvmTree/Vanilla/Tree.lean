/-
  NvmTree.Vanilla.Tree — `VanillaBPlusTree` over in-memory node references.

  A node object is a cell of the heap and its address is its `self_rep_`; `new`
  gives the next unused address, `remove` frees a cell.  `get` and `close` of a
  reference only move a cached pointer, so they leave no trace here.

  The recursion over the levels runs on fuel.  `none` is what the source has no
  answer for: a dangling reference, a wrong cast, an index past `size_`, or no
  fuel left; no call of a tree operation ever ends there
  (`NvmTree.Vanilla.Insert`, `NvmTree.Vanilla.Delete`).
-/
import NvmTree.Node.Inner

namespace NvmTree

/-! ## §1. The heap. -/

structure Heap (K V : Type*) where
  cells : BlkAddress → Option (Node K V)
  next : BlkAddress

namespace Heap

variable {K V : Type*}

def empty : Heap K V := ⟨fun _ => none, 0⟩

/-- The object at `a`, updated in place. -/
def set (h : Heap K V) (a : BlkAddress) (n : Node K V) : Heap K V :=
  { h with cells := Function.update h.cells a (some n) }

/-- A new object, at `h.next`. -/
def alloc (h : Heap K V) (n : Node K V) : Heap K V :=
  ⟨Function.update h.cells h.next (some n), h.next + 1⟩

/-- `remove`. -/
def free (h : Heap K V) (a : BlkAddress) : Heap K V :=
  { h with cells := Function.update h.cells a none }

end Heap

/-! ## §2. The recursion over the nodes. -/

namespace Node

variable {K V : Type*} [LinearOrder K]

/-- `search`. -/
def search : Nat → Heap K V → BlkAddress → K → Option (Option V)
  | 0, _, _, _ => none
  | fuel + 1, h, a, k =>
      match h.cells a with
      | none => none
      | some (.leaf n) => some (n.search k)
      | some (.inner n) =>
          let index := n.locateChildIndex k
          if index < 0 then some none
          else
            match n.slots[index.toNat]? with
            | none => none
            | some (_, c) => search fuel h c k

/-- The end of `InnerNode::insert_with_split_support`: the child at `position` of
the inner node `n` at `a` was split, and its right half needs a slot. -/
def addSplitChild (capacity : Nat) (h : Heap K V) (a : BlkAddress) (n : InnerNode K)
    (position : Nat) (right : BlkAddress) (boundary : K) :
    Option (Heap K V × Option (BlkAddress × K)) :=
  if n.size < capacity then
    some (h.set a (.inner (n.insertInnerNode right boundary (position + 1))), none)
  else
    let (l, r) := n.splitInsert capacity position right boundary h.next
    match r.slots with
    | [] => none
    | (leftmost, _) :: _ =>
        some ((h.set a (.inner l)).alloc (.inner r), some (h.next, leftmost))

/-- `insert_with_split_support`: the heap, and the right node with the boundary
key if the node at `a` was split. -/
def insertWithSplitSupport (capacity : Nat) :
    Nat → Heap K V → BlkAddress → K → V → Option (Heap K V × Option (BlkAddress × K))
  | 0, _, _, _, _ => none
  | fuel + 1, h, a, k, v =>
      match h.cells a with
      | none => none
      | some (.leaf n) =>
          match n.insertWithSplitSupport capacity k v h.next with
          | (left, none) => some (h.set a (.leaf left), none)
          | (left, some (right, boundary)) =>
              some ((h.set a (.leaf left)).alloc (.leaf right), some (h.next, boundary))
      | some (.inner n) =>
          let index := n.locateChildIndex k
          -- `exceed_left_boundary`
          let n := if index < 0 then n.setFirstKey k else n
          let target_node_index := (max 0 index).toNat
          match n.slots[target_node_index]? with
          | none => none
          | some (_, c) =>
              match insertWithSplitSupport capacity fuel (h.set a (.inner n)) c k v with
              | none => none
              | some (h, none) => some (h, none)
              | some (h, some (right, boundary)) =>
                  addSplitChild capacity h a n target_node_index right boundary

/-- `left_child->balance(right_child, boundary)`: the boundary, or `none` for a
merge. -/
def balance (capacity : Nat) (h : Heap K V) (l r : BlkAddress) : Option (Heap K V × Option K) :=
  match h.cells l, h.cells r with
  | some (.leaf left), some (.leaf right) =>
      let (left, right, boundary) := left.balance capacity right
      some ((h.set l (.leaf left)).set r (.leaf right), boundary)
  | some (.inner left), some (.inner right) =>
      let (left, right, boundary) := left.balance capacity right
      some ((h.set l (.inner left)).set r (.inner right), boundary)
  | _, _ => none

/-- The end of `InnerNode::delete_key`: the children at `left_child_index` and next
to it are balanced, and the node `n` at `a` takes the new boundary or drops the
slot of the right child. -/
def rebalance (capacity : Nat) (h : Heap K V) (a : BlkAddress) (n : InnerNode K)
    (left_child_index : Nat) : Option (Heap K V × Bool × Bool) :=
  let right_child_index := left_child_index + 1
  match n.slots[left_child_index]?, n.slots[right_child_index]? with
  | some (_, left_child), some (_, right_child) =>
      match balance capacity h left_child right_child with
      | none => none
      | some (h, some boundary) =>
          some (h.set a (.inner (n.setBoundary right_child_index boundary)), true, false)
      | some (h, none) =>
          let n := n.removeChild right_child_index
          some ((h.free right_child).set a (.inner n), true,
            decide (n.size < underflowBound capacity))
  | _, _ => none

/-- `delete_key(k, underflow)`: the heap, whether the key was there, and the
`underflow` flag after the call. -/
def deleteKey (capacity : Nat) :
    Nat → Heap K V → BlkAddress → K → Bool → Option (Heap K V × Bool × Bool)
  | 0, _, _, _, _ => none
  | fuel + 1, h, a, k, underflow =>
      match h.cells a with
      | none => none
      | some (.leaf n) =>
          let (n, deleted, underflow) := n.deleteKey capacity k underflow
          some (h.set a (.leaf n), deleted, underflow)
      | some (.inner n) =>
          let child_index := n.locateChildIndex k
          if child_index < 0 then some (h, false, underflow)
          else
            match n.slots[child_index.toNat]? with
            | none => none
            | some (_, child) =>
                match deleteKey capacity fuel h child k underflow with
                | none => none
                | some (h, deleted, underflow) =>
                    if !deleted then some (h, false, underflow)
                    else if !underflow || n.size < 2 then some (h, true, underflow)
                    else
                      -- the left neighbour where there is one, else the right one
                      rebalance capacity h a n
                        (if 1 ≤ child_index then (child_index - 1).toNat else child_index.toNat)

end Node

/-! ## §3. The tree. -/

structure VanillaBPlusTree (K V : Type*) where
  heap : Heap K V
  root : BlkAddress
  depth : Nat

namespace VanillaBPlusTree

variable {K V : Type*} [LinearOrder K]

/-- `init`: one empty leaf, marked modified. -/
def init : VanillaBPlusTree K V :=
  let leaf : LeafNode K V := { LeafNode.new 0 with modified := true }
  ⟨Heap.empty.alloc (.leaf leaf), 0, 1⟩

def search (t : VanillaBPlusTree K V) (k : K) : Option (Option V) :=
  Node.search t.depth t.heap t.root k

def insert (capacity : Nat) (t : VanillaBPlusTree K V) (k : K) (v : V) :
    Option (VanillaBPlusTree K V) :=
  match Node.insertWithSplitSupport capacity t.depth t.heap t.root k v with
  | none => none
  | some (h, none) => some { t with heap := h }
  | some (h, some (right, _)) =>
      match h.cells t.root, h.cells right with
      | some left, some right =>
          match left.getLeftmostKey, right.getLeftmostKey with
          | some kl, some kr =>
              let new_inner_node :=
                (InnerNode.ofChildren h.next (kl, left.selfRep) (kr, right.selfRep)).markModified
              some ⟨h.alloc (.inner new_inner_node), h.next, t.depth + 1⟩
          | _, _ => none
      | _, _ => none

/-- `delete_key`: the tree, and whether the key was there. -/
def deleteKey (capacity : Nat) (t : VanillaBPlusTree K V) (k : K) :
    Option (VanillaBPlusTree K V × Bool) :=
  match Node.deleteKey capacity t.depth t.heap t.root k false with
  | none => none
  | some (h, ret, underflow) =>
      match underflow, h.cells t.root with
      | true, some (.inner ⟨_, [(_, single_child)], _⟩) =>
          some (⟨h.free t.root, single_child, t.depth - 1⟩, ret)
      | _, _ => some ({ t with heap := h }, ret)

end VanillaBPlusTree

/-! ## §4. Sequences of calls. -/

/-- One call on the tree. -/
inductive Call (K V : Type*) where
  | insert (k : K) (v : V)
  | deleteKey (k : K)
  | search (k : K)
  deriving Repr, DecidableEq

/-- What a call returns. -/
inductive Answer (V : Type*) where
  | inserted
  | deleted (found : Bool)
  | searched (value : Option V)
  deriving Repr, DecidableEq

namespace VanillaBPlusTree

variable {K V : Type*} [LinearOrder K]

def call (capacity : Nat) (t : VanillaBPlusTree K V) :
    Call K V → Option (VanillaBPlusTree K V × Answer V)
  | .insert k v => (t.insert capacity k v).map (fun t => (t, .inserted))
  | .deleteKey k => (t.deleteKey capacity k).map (fun r => (r.1, .deleted r.2))
  | .search k => (t.search k).map (fun r => (t, .searched r))

/-- The tree after a sequence of calls, and their answers in order. -/
def run (capacity : Nat) : VanillaBPlusTree K V → List (Call K V) →
    Option (VanillaBPlusTree K V × List (Answer V))
  | t, [] => some (t, [])
  | t, c :: cs =>
      match t.call capacity c with
      | none => none
      | some (t, r) => (run capacity t cs).map (fun p => (p.1, r :: p.2))

end VanillaBPlusTree

end NvmTree
