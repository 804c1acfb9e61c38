/-
  NvmTree.OnDisk.Tree — `VanillaBPlusTree` over `blk_node_reference`.

  A node is an instance in memory only while an operation works on it: `get` loads
  it from its block, `close` writes it back if it is marked modified and drops it,
  `remove` gives its block back.  The operations are those of
  `NvmTree.Vanilla.Tree`; here each activation holds the instance it works on, and
  `Close` records what became of every instance that was closed.

  The block store is faithful: a read of an allocated address gives the last block
  written to it.  Accesses to other addresses have no effect and give nothing.
  `pick` stands for the order in which the set of freed addresses is iterated.
-/
import NvmTree.Blk.Allocator
import NvmTree.Vanilla.Range

namespace NvmTree

/-! ## §1. The block store. -/

/-- One `close`: the address of the reference, the instance that was dropped, and
the block at the address afterwards. -/
structure Close (K V : Type*) where
  address : BlkAddress
  node : Node K V
  stored : Option (Block K V)

structure Disk (K V : Type*) where
  blocks : BlkAddress → Option (Block K V)
  alloc : Allocator
  closed : List (Close K V)

namespace Disk

variable {K V : Type*}

/-- A new store. -/
def empty : Disk K V := ⟨fun _ => none, ⟨[], 0⟩, []⟩

/-- `is_address_valid`. -/
def isAddressValid (d : Disk K V) (a : BlkAddress) : Bool :=
  decide (a < d.alloc.cursor) && !d.alloc.freed.contains a

def read (d : Disk K V) (a : BlkAddress) : Option (Block K V) :=
  if d.isAddressValid a then d.blocks a else none

def write (d : Disk K V) (a : BlkAddress) (b : Block K V) : Disk K V :=
  if d.isAddressValid a then { d with blocks := Function.update d.blocks a (some b) } else d

/-- `get` of a reference without an instance. -/
def get (d : Disk K V) (a : BlkAddress) : Option (Node K V) := (d.read a).map Block.deserialize

/-- `close` of the reference to `a`, bound to the instance `n`. -/
def close (d : Disk K V) (a : BlkAddress) (n : Node K V) : Disk K V :=
  let d := if n.modified then d.write a n.serialize else d
  { d with closed := ⟨a, n, d.blocks a⟩ :: d.closed }

/-- `remove` of the reference to `a`: its instance is dropped as it is. -/
def remove (d : Disk K V) (a : BlkAddress) : Disk K V :=
  { d with alloc := d.alloc.deallocate a }

variable (pick : List BlkAddress → List BlkAddress)

/-- The address that `allocate` returns. -/
def next (d : Disk K V) : BlkAddress := ({ d.alloc with freed := pick d.alloc.freed } : Allocator).next

/-- `allocate`. -/
def allocate (d : Disk K V) : Disk K V :=
  { d with alloc := ({ d.alloc with freed := pick d.alloc.freed } : Allocator).allocate }

/-! ## §2. The recursion over the nodes. -/

variable [LinearOrder K]

/-- `search`. -/
def search : Nat → Disk K V → Node K V → K → Option (Disk K V × Option V)
  | 0, _, _, _ => none
  | _ + 1, d, .leaf n, k => some (d, n.search k)
  | fuel + 1, d, .inner n, k =>
      let index := n.locateChildIndex k
      if index < 0 then some (d, none)
      else
        match n.slots[index.toNat]? with
        | none => none
        | some (_, c) =>
            match d.get c with
            | none => none
            | some child =>
                match search fuel d child k with
                | none => none
                | some (d, v) => some (d.close c child, v)

/-- The end of `InnerNode::insert_with_split_support`: the child at `position` of
`n` was split into the instances `left` and `right`. -/
def addSplitChild (capacity : Nat) (d : Disk K V) (n : InnerNode K) (position : Nat)
    (left right : Node K V) (boundary : K) :
    Option (Disk K V × Node K V × Option (Node K V × K)) :=
  let n := n.markModified
  if n.size < capacity then
    let n := n.insertInnerNode right.selfRep boundary (position + 1)
    some ((d.close left.selfRep left).close right.selfRep right, .inner n, none)
  else
    let (l, r) := n.splitInsert capacity position right.selfRep boundary (d.next pick)
    let d := d.allocate pick
    match r.slots with
    | [] => none
    | (leftmost, _) :: _ =>
        some ((d.close left.selfRep left).close right.selfRep right, .inner l,
          some (.inner r, leftmost))

/-- `insert_with_split_support` on an instance: the instance afterwards, and the
instance of the right node with the boundary key if it was split. -/
def insertWithSplitSupport (capacity : Nat) :
    Nat → Disk K V → Node K V → K → V → Option (Disk K V × Node K V × Option (Node K V × K))
  | 0, _, _, _, _ => none
  | _ + 1, d, .leaf n, k, v =>
      match n.insertWithSplitSupport capacity k v (d.next pick) with
      | (left, none) => some (d, .leaf left, none)
      | (left, some (right, boundary)) =>
          some (d.allocate pick, .leaf left, some (.leaf right, boundary))
  | fuel + 1, d, .inner n, k, v =>
      let index := n.locateChildIndex k
      -- `exceed_left_boundary`
      let n := if index < 0 then n.setFirstKey k else n
      let target_node_index := (max 0 index).toNat
      match n.slots[target_node_index]? with
      | none => none
      | some (_, c) =>
          match d.get c with
          | none => none
          | some child =>
              match insertWithSplitSupport capacity fuel d child k v with
              | none => none
              | some (d, child, none) => some (d.close c child, .inner n, none)
              | some (d, left, some (right, boundary)) =>
                  d.addSplitChild pick capacity n target_node_index left right boundary

/-- `left_child->balance(right_child, boundary)` on two instances. -/
def balance (capacity : Nat) : Node K V → Node K V → Option (Node K V × Node K V × Option K)
  | .leaf left, .leaf right =>
      let (left, right, boundary) := left.balance capacity right
      some (.leaf left, .leaf right, boundary)
  | .inner left, .inner right =>
      let (left, right, boundary) := left.balance capacity right
      some (.inner left, .inner right, boundary)
  | _, _ => none

/-- The instances of the children `left_child` and `right_child`, the latter at
`right_child_index`, are balanced. -/
def rebalance (capacity : Nat) (d : Disk K V) (n : InnerNode K) (right_child_index : Nat)
    (left_child right_child : BlkAddress) (left right : Node K V) :
    Option (Disk K V × Node K V × Bool × Bool) :=
  match balance capacity left right with
  | none => none
  | some (left, right, some boundary) =>
      some ((d.close left_child left).close right_child right,
        .inner (n.setBoundary right_child_index boundary), true, false)
  | some (left, _, none) =>
      let n := n.removeChild right_child_index
      some ((d.close left_child left).remove right_child, .inner n, true,
        decide (n.size < underflowBound capacity))

/-- The end of `InnerNode::delete_key`: the child `c` at `child_index`, with the
instance `child`, under-flowed.  The left neighbour is loaded, or the right one for
the first child. -/
def balanceChild (capacity : Nat) (d : Disk K V) (n : InnerNode K) (child_index : Int)
    (c : BlkAddress) (child : Node K V) : Option (Disk K V × Node K V × Bool × Bool) :=
  if 1 ≤ child_index then
    let left_child_index := (child_index - 1).toNat
    match n.slots[left_child_index]? with
    | none => none
    | some (_, left_child) =>
        match d.get left_child with
        | none => none
        | some left => d.rebalance capacity n (left_child_index + 1) left_child c left child
  else
    let right_child_index := child_index.toNat + 1
    match n.slots[right_child_index]? with
    | none => none
    | some (_, right_child) =>
        match d.get right_child with
        | none => none
        | some right => d.rebalance capacity n right_child_index c right_child child right

/-- `delete_key(k, underflow)` on an instance: the instance afterwards, whether the
key was there, and the `underflow` flag. -/
def deleteKey (capacity : Nat) :
    Nat → Disk K V → Node K V → K → Bool → Option (Disk K V × Node K V × Bool × Bool)
  | 0, _, _, _, _ => none
  | _ + 1, d, .leaf n, k, underflow =>
      let (n, deleted, underflow) := n.deleteKey capacity k underflow
      some (d, .leaf n, deleted, underflow)
  | fuel + 1, d, .inner n, k, underflow =>
      let child_index := n.locateChildIndex k
      if child_index < 0 then some (d, .inner n, false, underflow)
      else
        match n.slots[child_index.toNat]? with
        | none => none
        | some (_, c) =>
            match d.get c with
            | none => none
            | some child =>
                match deleteKey capacity fuel d child k underflow with
                | none => none
                | some (d, child, deleted, underflow) =>
                    if !deleted then some (d.close c child, .inner n, false, underflow)
                    else if !underflow || n.size < 2 then
                      some (d.close c child, .inner n, true, underflow)
                    else d.balanceChild capacity n child_index c child

/-- `get_leftmost_leaf_node`. -/
def getLeftmostLeafNode : Nat → Disk K V → Node K V → Option (Disk K V × BlkAddress)
  | 0, _, _ => none
  | _ + 1, d, .leaf n => some (d, n.selfRep)
  | fuel + 1, d, .inner n =>
      match n.slots[0]? with
      | none => none
      | some (_, c) =>
          match d.get c with
          | none => none
          | some child =>
              match getLeftmostLeafNode fuel d child with
              | none => none
              | some (d, ret) => some (d.close c child, ret)

end Disk

/-! ## §3. The tree. -/

structure DiskTree (K V : Type*) where
  disk : Disk K V
  root : BlkAddress
  depth : Nat

namespace DiskTree

variable {K V : Type*} [LinearOrder K] (pick : List BlkAddress → List BlkAddress)

/-- `init`: one empty leaf, marked modified and closed. -/
def init : DiskTree K V :=
  let d : Disk K V := .empty
  let leaf : LeafNode K V := { LeafNode.new (d.next pick) with modified := true }
  ⟨(d.allocate pick).close (d.next pick) (.leaf leaf), d.next pick, 1⟩

def search (t : DiskTree K V) (k : K) : Option (DiskTree K V × Option V) :=
  match t.disk.get t.root with
  | none => none
  | some root_instance =>
      match t.disk.search t.depth root_instance k with
      | none => none
      | some (d, v) => some ({ t with disk := d.close t.root root_instance }, v)

def insert (capacity : Nat) (t : DiskTree K V) (k : K) (v : V) : Option (DiskTree K V) :=
  match t.disk.get t.root with
  | none => none
  | some root_instance =>
      match t.disk.insertWithSplitSupport pick capacity t.depth root_instance k v with
      | none => none
      | some (d, root_instance, none) => some { t with disk := d.close t.root root_instance }
      | some (d, left, some (right, _)) =>
          match left.getLeftmostKey, right.getLeftmostKey with
          | some kl, some kr =>
              let rep := d.next pick
              let new_inner_node :=
                (InnerNode.ofChildren rep (kl, left.selfRep) (kr, right.selfRep)).markModified
              let d := (((d.allocate pick).close left.selfRep left).close right.selfRep right)
              some ⟨d.close rep (.inner new_inner_node), rep, t.depth + 1⟩
          | _, _ => none

/-- `delete_key`.  A root left with one child is removed; the reference to the child
becomes the root and holds no instance. -/
def deleteKey (capacity : Nat) (t : DiskTree K V) (k : K) : Option (DiskTree K V × Bool) :=
  match t.disk.get t.root with
  | none => none
  | some root_node =>
      match t.disk.deleteKey capacity t.depth root_node k false with
      | none => none
      | some (d, root_node, ret, underflow) =>
          match underflow, root_node with
          | true, .inner ⟨_, [(_, single_child)], _⟩ =>
              some (⟨d.remove t.root, single_child, t.depth - 1⟩, ret)
          | _, root_node => some ({ t with disk := d.close t.root root_node }, ret)

def call (capacity : Nat) (t : DiskTree K V) : Call K V → Option (DiskTree K V × Answer V)
  | .insert k v => (t.insert pick capacity k v).map (fun t => (t, .inserted))
  | .deleteKey k => (t.deleteKey capacity k).map (fun r => (r.1, .deleted r.2))
  | .search k => (t.search k).map (fun r => (r.1, .searched r.2))

/-- The tree after a sequence of calls, and their answers in order. -/
def run (capacity : Nat) : DiskTree K V → List (Call K V) →
    Option (DiskTree K V × List (Answer V))
  | t, [] => some (t, [])
  | t, c :: cs =>
      match t.call pick capacity c with
      | none => none
      | some (t, r) => (run capacity t cs).map (fun p => (p.1, r :: p.2))

/-- `get_iterator`: the tree, and the leaf the iterator starts at. -/
def getIterator (t : DiskTree K V) : Option (DiskTree K V × Iterator K) :=
  match t.disk.get t.root with
  | none => none
  | some root_instance =>
      match t.disk.getLeftmostLeafNode t.depth root_instance with
      | none => none
      | some (d, leaf) =>
          some ({ t with disk := d.close t.root root_instance }, ⟨leaf, 0, none⟩)

end DiskTree

/-! ## §4. The iterator. -/

/-- An iterator and the instance its reference is bound to: the call of `next` that
finds nothing more does not close the last leaf. -/
structure DiskIterator (K V : Type*) where
  it : Iterator K
  loaded : Option (Node K V)

namespace DiskIterator

variable {K V : Type*} [LinearOrder K]

/-- `next`, as `Iterator.next`. -/
def next : Nat → Disk K V → DiskIterator K V →
    Option (Disk K V × DiskIterator K V × Option (K × V))
  | 0, _, _ => none
  | fuel + 1, d, i =>
      match i.loaded <|> d.get i.it.leafNodeRef with
      | some (.leaf leaf_node) =>
          match leaf_node.getEntry i.it.offset with
          | some (key, val) =>
              let it := { i.it with offset := i.it.offset + 1 }
              some (d.close i.it.leafNodeRef (.leaf leaf_node), ⟨it, none⟩,
                if it.inBound key then some (key, val) else none)
          | none =>
              match leaf_node.rightSibling with
              | some right_sibling_rep =>
                  next fuel (d.close i.it.leafNodeRef (.leaf leaf_node))
                    ⟨{ i.it with leafNodeRef := right_sibling_rep, offset := 0 }, none⟩
              | none => some (d, ⟨i.it, some (.leaf leaf_node)⟩, none)
      | _ => none

/-- The pairs that calls of `next` yield until one returns `false`, and the store
after them. -/
def drain (moves : Nat) : Nat → Disk K V → DiskIterator K V →
    Option (Disk K V × List (K × V))
  | 0, _, _ => none
  | calls + 1, d, i =>
      match next moves d i with
      | none => none
      | some (d, _, none) => some (d, [])
      | some (d, i, some e) => (drain moves calls d i).map (fun p => (p.1, e :: p.2))

end DiskIterator

end NvmTree
