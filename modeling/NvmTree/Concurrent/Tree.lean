/-
  NvmTree.Concurrent.Tree — `concurrent_b_plus_tree`: threads with node locks.

  A thread is at a program counter with its local variables; one step does one
  of the accesses to shared state: reading the root id or the height, acquiring
  or releasing a node's lock, reading, writing or allocating a block, updating
  the root.  What a thread computes from its local variables between two
  accesses belongs to the step before.  `step` is a function of the action, so a
  list of actions is an interleaving.

  The optimistic insertion takes its arguments `get_root_id()` and
  `get_height()` in either order: `run` evaluates the root id first,
  `heightFirst` and `rootAfter` the height first.

  The lock of the node a call works on is the back of `obtained_locks`, and those
  of the calls that wait for it are the nodes of the frames, so the deque itself
  is left out; so are the latency counters and the freeing of node objects.
-/
import NvmTree.Lib.Linearize
import NvmTree.Node.Stored
import NvmTree.RangeTree.World

namespace NvmTree

open RangeTree Linearize

namespace ConcurrentBPlusTree

/-! ## §1. Locks. -/

/-- `READ_LOCK` and `WRITE_LOCK`. -/
abbrev LockType := Mode

/-- The holders of each node's `shared_mutex`. -/
abbrev LockManager (T : Type*) := BlkAddress → List (T × LockType)

namespace LockManager

variable {T : Type*} [DecidableEq T]

/-- `lock_shared` waits for the writer, `lock` for every holder. -/
def admits (m : LockManager T) (id : BlkAddress) : LockType → Bool
  | .read => (m id).all (fun h => h.2 = .read)
  | .write => (m id).isEmpty

def acquire (m : LockManager T) (t : T) (id : BlkAddress) (type : LockType) : LockManager T :=
  Function.update m id ((t, type) :: m id)

def release (m : LockManager T) (t : T) (id : BlkAddress) : LockManager T :=
  Function.update m id ((m id).filter (fun h => h.1 ≠ t))

/-- The lock of `t` on `id`. -/
def lockOf (m : LockManager T) (t : T) (id : BlkAddress) : Option LockType := (m id).lookup t

end LockManager

/-! ## §2. Threads. -/

inductive Op (K V : Type*) where
  | insert (key : K) (value : V)
  | search (key : K)
  deriving Repr, DecidableEq

inductive Answer (V : Type*) where
  | inserted
  | searched (value : Option V)
  deriving Repr, DecidableEq

/-- `search_with_concurrency_control`. -/
inductive SearchPc (V : Type*) where
  /-- The argument `get_root_id()`. -/
  | arg
  | lock (current_node_id : BlkAddress) (is_root : Bool) (parent_lock : Option BlkAddress)
  /-- `get_root_id() != current_node_id`. -/
  | check (current_node_id : BlkAddress)
  | retry (current_node_id : BlkAddress)
  | unlockParent (current_node_id parent_lock : BlkAddress)
  | read (current_node_id : BlkAddress)
  | unlock (current_node_id : BlkAddress) (found : Option V)
  | ret (found : Option V)
  deriving Repr, DecidableEq

/-- A pending call of `insert_with_pessimistic_concurrency_control` on an inner
node: it waits for the call on its child. -/
structure Frame (K : Type*) where
  current_node_id : BlkAddress
  inner_node : InnerNode K
  target_node_index : Nat
  is_root : Bool
  deriving Repr, DecidableEq

/-- The right node of a split and its boundary key. -/
structure Split (K : Type*) where
  right : BlkAddress
  boundary_key : K
  deriving Repr, DecidableEq

/-- `concurrent_insert`, with its optimistic (`opt…`) and pessimistic calls. -/
inductive InsertPc (K V : Type*) where
  /-- `current_node_id = get_root_id()`, which is not used. -/
  | start
  | optArgs
  | optHeight (root : BlkAddress)
  | optRoot (height : Int)
  | optLock (current_node_id : BlkAddress) (current_depth : Int) (is_root : Bool)
      (parent_lock : Option BlkAddress)
  | optCheck (current_node_id : BlkAddress) (current_depth : Int)
  | optRetry (current_node_id : BlkAddress)
  | optUnlockParent (current_node_id : BlkAddress) (current_depth : Int)
      (parent_lock : BlkAddress)
  | optRead (current_node_id : BlkAddress) (current_depth : Int)
  | optWrite (current_node_id : BlkAddress) (leaf : LeafNode K V)
  | optUnlock (current_node_id : BlkAddress) (is_succeed : Bool)
  | arg
  | lock (current_node_id : BlkAddress) (is_root : Bool) (parents : List (Frame K))
  | check (current_node_id : BlkAddress)
  | retry (current_node_id : BlkAddress)
  | read (current_node_id : BlkAddress) (is_root : Bool) (parents : List (Frame K))
  /-- `insert_with_split_support` on the leaf. -/
  | leaf (current_node_id : BlkAddress) (is_root : Bool) (parents : List (Frame K))
      (leaf : LeafNode K V)
  /-- The two halves of a split node are written, … -/
  | writeLeft (current_node_id : BlkAddress) (is_root : Bool) (parents : List (Frame K))
      (left right : Node K V) (boundary_key : K)
  | writeRight (current_node_id : BlkAddress) (is_root : Bool) (parents : List (Frame K))
      (left right : Node K V) (boundary_key : K)
  /-- … and a root over them when the node was the root. -/
  | newRoot (current_node_id : BlkAddress) (left right : Node K V) (boundary_key : K)
  | writeRoot (current_node_id : BlkAddress) (left right : Node K V) (boundary_key : K)
      (new_inner_node : InnerNode K)
  | updateRoot (current_node_id : BlkAddress) (left right : Node K V) (boundary_key : K)
      (new_inner_node : InnerNode K)
  /-- The call on the child has returned: the copy of the inner node is written, … -/
  | writeBack (frame : Frame K) (parents : List (Frame K))
  /-- … or the inner node is split. -/
  | inner (frame : Frame K) (parents : List (Frame K)) (child_split : Split K)
  | unlock (current_node_id : BlkAddress) (parents : List (Frame K)) (split : Option (Split K))
  | ret
  deriving Repr, DecidableEq

inductive Thread (K V : Type*) where
  | idle
  | searching (id : Nat) (key : K) (pc : SearchPc V)
  | inserting (id : Nat) (key : K) (value : V) (pc : InsertPc K V)
  deriving Repr, DecidableEq

/-! ## §3. The state and its accesses. -/

structure State (T K V : Type*) where
  blocks : BlkAddress → Option (Block K V)
  allocator : Allocator
  root : BlkAddress
  depth : Nat
  locks : LockManager T
  threads : T → Thread K V
  /-- The number of the next operation, and what happened so far. -/
  nextId : Nat
  history : List (Event (Op K V) (Answer V))

namespace State

variable {T K V : Type*} [DecidableEq T]

def goto (s : State T K V) (t : T) (th : Thread K V) : State T K V :=
  { s with threads := Function.update s.threads t th }

/-- A lock is acquired when the lock manager admits it. -/
def acquire (s : State T K V) (t : T) (id : BlkAddress) (type : LockType) (th : Thread K V) :
    Option (State T K V) :=
  if s.locks.admits id type then
    some ({ s with locks := s.locks.acquire t id type }.goto t th)
  else none

def release (s : State T K V) (t : T) (id : BlkAddress) (th : Thread K V) : State T K V :=
  { s with locks := s.locks.release t id }.goto t th

def write (s : State T K V) (t : T) (id : BlkAddress) (b : Block K V) (th : Thread K V) :
    State T K V :=
  { s with blocks := Function.update s.blocks id (some b) }.goto t th

/-- `allocate()` gave `s.allocator.next`. -/
def alloc (s : State T K V) (t : T) (th : Thread K V) : State T K V :=
  { s with allocator := s.allocator.allocate }.goto t th

/-- `update_root_node_id_and_increase_tree_height`. -/
def updateRoot (s : State T K V) (t : T) (id : BlkAddress) (th : Thread K V) : State T K V :=
  { s with root := id, depth := s.depth + 1 }.goto t th

def respond (s : State T K V) (t : T) (id : Nat) (answer : Answer V) : State T K V :=
  { s with history := s.history ++ [Event.respond id answer] }.goto t .idle

end State

/-! ## §4. The steps. -/

section Steps

variable {T K V : Type*} [DecidableEq T] [LinearOrder K]

/-- After its own lock a call releases its parent's. -/
def SearchPc.locked (node : BlkAddress) : Option BlkAddress → SearchPc V
  | some parent => .unlockParent node parent
  | none => .read node

def searchStep (s : State T K V) (t : T) (id : Nat) (key : K) : SearchPc V → Option (State T K V)
  | .arg => some (s.goto t (.searching id key (.lock s.root true none)))
  | .lock node is_root parent =>
      s.acquire t node .read (.searching id key
        (if is_root then .check node else SearchPc.locked node parent))
  | .check node =>
      some (s.goto t (.searching id key (if s.root ≠ node then .retry node else .read node)))
  | .retry node => some (s.release t node (.searching id key .arg))
  | .unlockParent node parent => some (s.release t parent (.searching id key (.read node)))
  | .read node =>
      match (s.blocks node).map Block.deserialize with
      | none => none
      | some (.leaf leaf) => some (s.goto t (.searching id key (.unlock node (leaf.search key))))
      | some (.inner inner_node) =>
          let target_node_index := inner_node.locateChildIndex key
          if target_node_index < 0 then
            some (s.goto t (.searching id key (.unlock node none)))
          else
            match inner_node.slots[target_node_index.toNat]? with
            | none => none
            | some (_, child) => some (s.goto t (.searching id key (.lock child false (some node))))
  | .unlock node found => some (s.release t node (.searching id key (.ret found)))
  | .ret found => some (s.respond t id (.searched found))

/-- The lock an optimistic call takes. -/
def lockType (current_depth : Int) : LockType := if current_depth = 1 then .write else .read

def InsertPc.optLocked (node : BlkAddress) (depth : Int) : Option BlkAddress → InsertPc K V
  | some parent => .optUnlockParent node depth parent
  | none => .optRead node depth

/-- Where the calls that wait go on after a call has returned. -/
def InsertPc.resume (capacity : Nat) : List (Frame K) → Option (Split K) → InsertPc K V
  | [], _ => .ret
  | f :: parents, none =>
      if f.inner_node.modified then .writeBack f parents else .unlock f.current_node_id parents none
  | f :: parents, some child_split =>
      if f.inner_node.size < capacity then
        .writeBack { f with
          inner_node := f.inner_node.insertInnerNode child_split.right child_split.boundary_key
            (f.target_node_index + 1) } parents
      else .inner f parents child_split

def optStep (capacity : Nat) (s : State T K V) (t : T) (key : K) (value : V)
    (go : InsertPc K V → Thread K V) (node : BlkAddress) (depth : Int) : Option (State T K V) :=
  match (s.blocks node).map Block.deserialize with
  | none => none
  | some (.leaf leaf) =>
      if leaf.size = capacity then some (s.goto t (go (.optUnlock node false)))
      else some (s.goto t (go (.optWrite node (leaf.insert capacity key value).1)))
  | some (.inner inner_node) =>
      let target_node_index := inner_node.locateChildIndex key
      if target_node_index < 0 then some (s.goto t (go (.optUnlock node false)))
      else
        match inner_node.slots[target_node_index.toNat]? with
        | none => none
        | some (_, child) => some (s.goto t (go (.optLock child (depth - 1) false (some node))))

def readStep (s : State T K V) (t : T) (key : K) (go : InsertPc K V → Thread K V)
    (node : BlkAddress) (is_root : Bool) (parents : List (Frame K)) : Option (State T K V) :=
  match (s.blocks node).map Block.deserialize with
  | none => none
  | some (.leaf leaf) => some (s.goto t (go (.leaf node is_root parents leaf)))
  | some (.inner inner_node) =>
      let target_node_index := inner_node.locateChildIndex key
      let inner_node := if target_node_index < 0 then inner_node.setFirstKey key else inner_node
      match inner_node.slots[target_node_index.toNat]? with
      | none => none
      | some (_, child) =>
          some (s.goto t (go (.lock child false
            (⟨node, inner_node, target_node_index.toNat, is_root⟩ :: parents))))

/-- The block of a split node goes to `get_self_rep()` of the leaf, and to the
inner node's own id. -/
def leftAddress (node : BlkAddress) : Node K V → BlkAddress
  | .leaf left => left.selfRep
  | .inner _ => node

def insertStep (capacity : Nat) (s : State T K V) (t : T) (id : Nat) (key : K) (value : V)
    (pc : InsertPc K V) : Option (State T K V) :=
  let go : InsertPc K V → Thread K V := Thread.inserting id key value
  match pc with
  | .start => some (s.goto t (go .optArgs))
  | .optArgs => some (s.goto t (go (.optHeight s.root)))
  | .optHeight root => some (s.goto t (go (.optLock root s.depth true none)))
  | .optRoot _ => none
  | .optLock node depth is_root parent =>
      s.acquire t node (lockType depth)
        (go (if is_root then .optCheck node depth else .optLocked node depth parent))
  | .optCheck node depth =>
      some (s.goto t (go (if s.root ≠ node then .optRetry node else .optRead node depth)))
  | .optRetry node => some (s.release t node (go .optArgs))
  | .optUnlockParent node depth parent => some (s.release t parent (go (.optRead node depth)))
  | .optRead node depth => optStep capacity s t key value go node depth
  | .optWrite node leaf => some (s.write t node leaf.serialize (go (.optUnlock node true)))
  | .optUnlock node is_succeed =>
      some (s.release t node (go (if is_succeed then .ret else .arg)))
  | .arg => some (s.goto t (go (.lock s.root true [])))
  | .lock node is_root parents =>
      s.acquire t node .write (go (if is_root then .check node else .read node is_root parents))
  | .check node =>
      some (s.goto t (go (if s.root ≠ node then .retry node else .read node true [])))
  | .retry node => some (s.release t node (go .arg))
  | .read node is_root parents => readStep s t key go node is_root parents
  | .leaf node is_root parents leaf =>
      match leaf.insertWithSplitSupport capacity key value s.allocator.next with
      | (leaf, none) =>
          some (s.write t leaf.selfRep leaf.serialize (go (.unlock node parents none)))
      | (left, some (right, boundary_key)) =>
          some (s.alloc t (go (.writeLeft node is_root parents (.leaf left) (.leaf right)
            boundary_key)))
  | .writeLeft node is_root parents left right boundary_key =>
      some (s.write t (leftAddress node left) left.serialize
        (go (.writeRight node is_root parents left right boundary_key)))
  | .writeRight node is_root parents left right boundary_key =>
      some (s.write t right.selfRep right.serialize
        (go (if is_root then .newRoot node left right boundary_key
          else .unlock node parents (some ⟨right.selfRep, boundary_key⟩))))
  | .newRoot node left right boundary_key =>
      match left.getLeftmostKey, right.getLeftmostKey with
      | some kl, some kr =>
          let new_inner_node :=
            (InnerNode.ofChildren s.allocator.next (kl, left.selfRep) (kr, right.selfRep)).markModified
          some (s.alloc t (go (.writeRoot node left right boundary_key new_inner_node)))
      | _, _ => none
  | .writeRoot node left right boundary_key new_inner_node =>
      some (s.write t new_inner_node.selfRep (new_inner_node.serialize V)
        (go (.updateRoot node left right boundary_key new_inner_node)))
  | .updateRoot node _ right boundary_key new_inner_node =>
      some (s.updateRoot t new_inner_node.selfRep
        (go (.unlock node [] (some ⟨right.selfRep, boundary_key⟩))))
  | .writeBack f parents =>
      some (s.write t f.current_node_id (f.inner_node.serialize V)
        (go (.unlock f.current_node_id parents none)))
  | .inner f parents child_split =>
      let halves := f.inner_node.splitInsert capacity f.target_node_index child_split.right
        child_split.boundary_key s.allocator.next
      match halves.2.slots with
      | [] => none
      | (boundary_key, _) :: _ =>
          some (s.alloc t (go (.writeLeft f.current_node_id f.is_root parents (.inner halves.1)
            (.inner halves.2) boundary_key)))
  | .unlock node parents split =>
      some (s.release t node (go (.resume capacity parents split)))
  | .ret => some (s.respond t id .inserted)

/-- What happens next: a call, a step of a thread, or a step of a thread that
evaluates the height before the root id. -/
inductive Action (T K V : Type*) where
  | invoke (t : T) (op : Op K V)
  | run (t : T)
  | heightFirst (t : T)
  | rootAfter (t : T)
  deriving Repr, DecidableEq

def Thread.start (id : Nat) : Op K V → Thread K V
  | .insert key value => .inserting id key value .start
  | .search key => .searching id key .arg

def step (capacity : Nat) (s : State T K V) : Action T K V → Option (State T K V)
  | .invoke t op =>
      match s.threads t with
      | .idle =>
          some ({ s with
            nextId := s.nextId + 1
            history := s.history ++ [Event.invoke s.nextId op] }.goto t (Thread.start s.nextId op))
      | _ => none
  | .run t =>
      match s.threads t with
      | .idle => none
      | .searching id key pc => searchStep s t id key pc
      | .inserting id key value pc => insertStep capacity s t id key value pc
  | .heightFirst t =>
      match s.threads t with
      | .inserting id key value .optArgs =>
          some (s.goto t (.inserting id key value (.optRoot s.depth)))
      | _ => none
  | .rootAfter t =>
      match s.threads t with
      | .inserting id key value (.optRoot height) =>
          some (s.goto t (.inserting id key value (.optLock s.root height true none)))
      | _ => none

def run (capacity : Nat) : State T K V → List (Action T K V) → Option (State T K V)
  | s, [] => some s
  | s, a :: as => (step capacity s a).bind (fun s' => run capacity s' as)

/-- A tree of the given blocks, and no call yet. -/
def start (blocks : BlkAddress → Option (Block K V)) (allocator : Allocator) (root : BlkAddress)
    (depth : Nat) : State T K V where
  blocks := blocks
  allocator := allocator
  root := root
  depth := depth
  locks := fun _ => []
  threads := fun _ => .idle
  nextId := 0
  history := []

/-- After `init`: one empty leaf. -/
def init : State T K V :=
  start (Function.update (fun _ => none) 0 (some (LeafNode.new 0).serialize)) ⟨[], 1⟩ 0 1

end Steps

end ConcurrentBPlusTree

end NvmTree
