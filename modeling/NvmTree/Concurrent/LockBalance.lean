/-
  NvmTree.Concurrent.LockBalance — the locks one call acquires and releases.

  Here the three recursions of `concurrent_b_plus_tree` run as one thread sees
  them, with `obtained_locks` and its assertions.  What the other threads do
  between two accesses is the `view`: at each moment it shows a root id, a height,
  blocks and a next address, and nothing is assumed about it.  A block that is
  written need not be there afterwards.

  A call can stop only because it waits for a lock it holds itself, or because
  what it reads is not a node it can go on with.  Releasing a lock that is not
  held in that mode, or a failed assertion on `obtained_locks` or `self_lock.id`,
  is ruled out.

  After its child has returned, a call releases its own lock `if (current_node_id
  == obtained_locks.back().id)`.  When it has just popped and released it, the back
  is the parent's lock; a write lock is never granted twice, so that lock has
  another id.

  Main result:
    * `locks_balanced` — whatever the view, each of the three calls, started with
      no lock, ends with no lock.
-/
import NvmTree.Concurrent.Tree
import NvmTree.Lib.Hoare

namespace NvmTree

open Hoare

namespace ConcurrentBPlusTree

/-! ## §1. Accesses of one thread. -/

/-- What the shared state shows at one moment. -/
structure Shared (K V : Type) where
  root : BlkAddress
  height : Int
  blocks : BlkAddress → Option (Block K V)
  next : BlkAddress

/-- `lock_descriptor`. -/
structure LockDescriptor where
  id : BlkAddress
  type : LockType
  deriving Repr, DecidableEq

/-- The moment, `obtained_locks` with its back in front, and the locks the thread
holds. -/
structure Locals where
  clock : Nat
  obtainedLocks : List LockDescriptor
  held : List LockDescriptor

inductive Stop where
  /-- An assertion on the locks, or `back` or `pop_back` of an empty deque. -/
  | assertion
  /-- A lock is released that is not held in that mode. -/
  | unheld
  /-- The thread waits for a lock that it holds itself. -/
  | waits
  /-- There is no node to go on with. -/
  | undefined
  deriving Repr, DecidableEq

/-- `get_read_lock` and `get_write_lock`.  It waits until the other threads have
released the lock, and for ever if this one has it. -/
def getLock (type : LockType) (id : BlkAddress) : Prog Locals Stop LockDescriptor := fun c =>
  if c.held.any (fun l => l.id = id ∧ (type = .write ∨ l.type = .write)) then .error .waits
  else .ok (⟨id, type⟩, { c with held := ⟨id, type⟩ :: c.held })

def releaseLock (l : LockDescriptor) : Prog Locals Stop Unit := fun c =>
  if l ∈ c.held then .ok ((), { c with held := c.held.erase l }) else .error .unheld

def pushBack (l : LockDescriptor) : Prog Locals Stop Unit := fun c =>
  .ok ((), { c with obtainedLocks := l :: c.obtainedLocks })

def back : Prog Locals Stop LockDescriptor := fun c =>
  match c.obtainedLocks with
  | [] => .error .assertion
  | l :: _ => .ok (l, c)

def popBack : Prog Locals Stop Unit := fun c =>
  match c.obtainedLocks with
  | [] => .error .assertion
  | _ :: rest => .ok ((), { c with obtainedLocks := rest })

def obtainedSize : Prog Locals Stop Nat := fun c => .ok (c.obtainedLocks.length, c)

/-- `assert`. -/
def require (b : Bool) : Prog Locals Stop Unit := if b then pure () else throw .assertion

section Program

variable {K V : Type} (view : Nat → Shared K V)

/-- One look at the shared state. -/
def look {α : Type} (f : Shared K V → α) : Prog Locals Stop α := fun c =>
  .ok (f (view c.clock), { c with clock := c.clock + 1 })

def getRootId : Prog Locals Stop BlkAddress := look view Shared.root

def getHeight : Prog Locals Stop Int := look view Shared.height

/-- `allocate`. -/
def allocate : Prog Locals Stop BlkAddress := look view Shared.next

def readBlock (id : BlkAddress) : Prog Locals Stop (Node K V) := fun c =>
  match (view c.clock).blocks id with
  | none => .error .undefined
  | some b => .ok (b.deserialize, { c with clock := c.clock + 1 })

/-- A write, or the update of the root: what is seen of it is up to the view. -/
def writeShared : Prog Locals Stop Unit := fun c => .ok ((), { c with clock := c.clock + 1 })

def writeBlock (_id : BlkAddress) (_block : Block K V) : Prog Locals Stop Unit := writeShared

def updateRootNodeIdAndIncreaseTreeHeight (_id : BlkAddress) : Prog Locals Stop Unit := writeShared

/-- `is_current_node_root && get_root_id() != current_node_id`. -/
def rootChanged (node : BlkAddress) : Bool → Prog Locals Stop Bool
  | true => do
      let root ← getRootId view
      pure (root ≠ node)
  | false => pure false

/-- A call that has its lock releases its parent's. -/
def releaseParent : Prog Locals Stop Unit := do
  let size ← obtainedSize
  if 0 < size then do
    require (size = 1)
    let parent_lock ← back
    popBack
    releaseLock parent_lock
  else pure ()

/-- After the call on the child: the own lock is released if it is still the back. -/
def releaseIfBack (node : BlkAddress) : Prog Locals Stop Unit := do
  let size ← obtainedSize
  if 0 < size then do
    let l ← back
    if node = l.id then do
      releaseLock l
      popBack
    else pure ()
  else pure ()

/-- After a split child was taken in. -/
def releaseSelf (node : BlkAddress) : Prog Locals Stop Unit := do
  let self_lock ← back
  popBack
  require (self_lock.id = node)
  releaseLock self_lock

/-! ## §2. The three calls. -/

variable [LinearOrder K]

/-- `search_with_concurrency_control`; `fuel` bounds the depth of the calls. -/
def searchWithConcurrencyControl (key : K) :
    Nat → BlkAddress → Bool → Prog Locals Stop (Option V)
  | 0, _, _ => throw .undefined
  | fuel + 1, node, is_root => do
      let l ← getLock .read node
      let changed ← rootChanged view node is_root
      if changed then do
        releaseLock l
        let root ← getRootId view
        searchWithConcurrencyControl key fuel root true
      else do
        releaseParent
        pushBack l
        let n ← readBlock view node
        match n with
        | .leaf leaf => do
            releaseLock l
            popBack
            pure (leaf.search key)
        | .inner inner_node =>
            if inner_node.locateChildIndex key < 0 then do
              releaseLock l
              popBack
              pure none
            else
              match inner_node.slots[(inner_node.locateChildIndex key).toNat]? with
              | none => throw .undefined
              | some (_, child) => do
                  let found ← searchWithConcurrencyControl key fuel child false
                  releaseIfBack node
                  pure found

/-- `insert_with_optimistic_concurrency_control`.  The root id and the height are
looked at in some order; the view may show any pair of them. -/
def insertWithOptimisticConcurrencyControl (capacity : Nat) (key : K) (value : V) :
    Nat → BlkAddress → Int → Bool → Prog Locals Stop Bool
  | 0, _, _, _ => throw .undefined
  | fuel + 1, node, depth, is_root => do
      let l ← getLock (lockType depth) node
      let changed ← rootChanged view node is_root
      if changed then do
        releaseLock l
        let root ← getRootId view
        let height ← getHeight view
        insertWithOptimisticConcurrencyControl capacity key value fuel root height true
      else do
        releaseParent
        pushBack l
        let n ← readBlock view node
        match n with
        | .leaf leaf =>
            if leaf.size = capacity then do
              releaseLock l
              popBack
              pure false
            else do
              writeBlock node (leaf.insert capacity key value).1.serialize
              releaseLock l
              popBack
              pure true
        | .inner inner_node =>
            if inner_node.locateChildIndex key < 0 then do
              releaseIfBack node
              pure false
            else
              match inner_node.slots[(inner_node.locateChildIndex key).toNat]? with
              | none => throw .undefined
              | some (_, child) => do
                  let is_succeed ← insertWithOptimisticConcurrencyControl capacity key value fuel
                    child (depth - 1) false
                  releaseIfBack node
                  pure is_succeed

/-- The new root over the halves of the old one, if the node was the root. -/
def growRoot (left right : Node K V) : Bool → Prog Locals Stop Unit
  | false => pure ()
  | true => do
      let next ← allocate view
      match left.getLeftmostKey, right.getLeftmostKey with
      | some kl, some kr => do
          let new_inner_node :=
            (InnerNode.ofChildren next (kl, left.selfRep) (kr, right.selfRep)).markModified
          writeBlock next (new_inner_node.serialize V)
          updateRootNodeIdAndIncreaseTreeHeight next
      | _, _ => throw .undefined

/-- What `insert_with_pessimistic_concurrency_control` does on a leaf. -/
def insertToLeaf (capacity : Nat) (key : K) (value : V) (l : LockDescriptor) (is_root : Bool)
    (leaf : LeafNode K V) : Prog Locals Stop (Option (Split K)) := do
  let next ← allocate view
  match leaf.insertWithSplitSupport capacity key value next with
  | (leaf, none) => do
      writeBlock leaf.selfRep leaf.serialize
      releaseLock l
      popBack
      pure none
  | (left, some (right, boundary_key)) => do
      writeBlock left.selfRep left.serialize
      writeBlock right.selfRep right.serialize
      growRoot view (.leaf left) (.leaf right) is_root
      releaseLock l
      popBack
      pure (some ⟨right.selfRep, boundary_key⟩)

variable (V) in
/-- The copy of an inner node is written if it was changed on the way down. -/
def flushIfModified (node : BlkAddress) (inner_node : InnerNode K) : Prog Locals Stop Unit :=
  if inner_node.modified then writeBlock node (inner_node.serialize V) else pure ()

/-- What it does on an inner node after the call on the child has returned. -/
def returnToInner (capacity : Nat) (node : BlkAddress) (is_root : Bool) (inner_node : InnerNode K)
    (target_node_index : Nat) : Option (Split K) → Prog Locals Stop (Option (Split K))
  | some child_split =>
      if inner_node.size < capacity then do
        let inner_node := inner_node.insertInnerNode child_split.right child_split.boundary_key
          (target_node_index + 1)
        writeBlock node (inner_node.serialize V)
        releaseSelf node
        releaseIfBack node
        pure none
      else do
        let next ← allocate view
        let halves := inner_node.splitInsert capacity target_node_index child_split.right
          child_split.boundary_key next
        writeBlock node (halves.1.serialize V)
        writeBlock next (halves.2.serialize V)
        growRoot view (.inner halves.1) (.inner halves.2) is_root
        releaseSelf node
        releaseIfBack node
        match halves.2.slots with
        | [] => throw .undefined
        | (boundary_key, _) :: _ => pure (some ⟨next, boundary_key⟩)
  | none => do
      flushIfModified V node inner_node
      releaseIfBack node
      pure none

/-- `insert_with_pessimistic_concurrency_control`. -/
def insertWithPessimisticConcurrencyControl (capacity : Nat) (key : K) (value : V) :
    Nat → BlkAddress → Bool → Prog Locals Stop (Option (Split K))
  | 0, _, _ => throw .undefined
  | fuel + 1, node, is_root => do
      let l ← getLock .write node
      let changed ← rootChanged view node is_root
      if changed then do
        releaseLock l
        let root ← getRootId view
        insertWithPessimisticConcurrencyControl capacity key value fuel root true
      else do
        pushBack l
        let n ← readBlock view node
        match n with
        | .leaf leaf => insertToLeaf view capacity key value l is_root leaf
        | .inner inner_node =>
            let index := inner_node.locateChildIndex key
            let inner_node := if index < 0 then inner_node.setFirstKey key else inner_node
            match inner_node.slots[index.toNat]? with
            | none => throw .undefined
            | some (_, child) => do
                let child_split ← insertWithPessimisticConcurrencyControl capacity key value fuel
                  child false
                returnToInner view capacity node is_root inner_node index.toNat child_split

def concurrentSearch (fuel : Nat) (key : K) : Prog Locals Stop (Option V) := do
  let root ← getRootId view
  let found ← searchWithConcurrencyControl view key fuel root true
  let size ← obtainedSize
  require (size = 0)
  pure found

def concurrentInsert (capacity fuel : Nat) (key : K) (value : V) : Prog Locals Stop Unit := do
  let _current_node_id ← getRootId view
  let root ← getRootId view
  let height ← getHeight view
  let is_succeed ← insertWithOptimisticConcurrencyControl view capacity key value fuel root height
    true
  if is_succeed then pure ()
  else do
    let size ← obtainedSize
    require (size = 0)
    let root ← getRootId view
    let _split ← insertWithPessimisticConcurrencyControl view capacity key value fuel root true
    let size ← obtainedSize
    require (size = 0)

end Program

/-! ## §3. The accesses, by their locks. -/

/-- The deque and the locks held. -/
def Has (obtained held : List LockDescriptor) (c : Locals) : Prop :=
  c.obtainedLocks = obtained ∧ c.held = held

/-- Reasons that are no fault of the locking. -/
def Stop.Harmless (e : Stop) : Prop := e ≠ .assertion ∧ e ≠ .unheld

/-- A program that does not fail on its locks. -/
abbrev Locked {α : Type} (P : Locals → Prop) (x : Prog Locals Stop α) (Q : α → Locals → Prop) :
    Prop := Triple Stop.Harmless P x Q

section Rules

variable {K V : Type} {view : Nat → Shared K V} {obtained held : List LockDescriptor}
  {l : LockDescriptor} {α : Type}

/-- A write lock is granted only if the thread does not hold the node. -/
theorem getLock_rule (type : LockType) (id : BlkAddress) :
    Locked (Has obtained held) (getLock type id) fun l c =>
      (l = ⟨id, type⟩ ∧ (type = .write → ∀ x ∈ held, x.id ≠ id))
        ∧ Has obtained (⟨id, type⟩ :: held) c := by
  rintro c ⟨rfl, rfl⟩
  by_cases hbusy : c.held.any (fun l => l.id = id ∧ (type = .write ∨ l.type = .write))
  · simp only [getLock, if_pos hbusy]
    exact ⟨nofun, nofun⟩
  · simp only [getLock, if_neg hbusy]
    refine ⟨⟨trivial, fun htype x hx hid => hbusy ?_⟩, rfl, rfl⟩
    exact List.any_eq_true.2 ⟨x, hx, by simp [hid, htype]⟩

theorem releaseLock_rule (h : l ∈ held) :
    Locked (Has obtained held) (releaseLock l) fun _ => Has obtained (held.erase l) := by
  rintro c ⟨rfl, rfl⟩
  simp only [releaseLock, if_pos h]
  exact ⟨rfl, rfl⟩

theorem pushBack_rule (l : LockDescriptor) :
    Locked (Has obtained held) (pushBack l) fun _ => Has (l :: obtained) held := by
  rintro c ⟨rfl, rfl⟩
  exact ⟨rfl, rfl⟩

theorem back_rule :
    Locked (Has (l :: obtained) held) back fun x c => x = l ∧ Has (l :: obtained) held c := by
  rintro c ⟨h, rfl⟩
  simp only [back, h]
  exact ⟨trivial, h, rfl⟩

theorem popBack_rule :
    Locked (Has (l :: obtained) held) popBack fun _ => Has obtained held := by
  rintro c ⟨h, rfl⟩
  simp only [popBack, h]
  exact ⟨rfl, rfl⟩

theorem obtainedSize_rule :
    Locked (Has obtained held) obtainedSize fun n c => n = obtained.length ∧ Has obtained held c := by
  rintro c ⟨rfl, rfl⟩
  exact ⟨rfl, rfl, rfl⟩

theorem require_rule {b : Bool} {P : Locals → Prop} (h : b = true) :
    Locked P (require b) fun _ => P := by
  unfold require
  rw [if_pos h]
  exact pure_rule fun _ hs => hs

theorem look_rule (f : Shared K V → α) :
    Locked (Has obtained held) (look view f) fun _ => Has obtained held := by
  rintro c ⟨rfl, rfl⟩
  exact ⟨rfl, rfl⟩

theorem readBlock_rule (id : BlkAddress) :
    Locked (Has obtained held) (readBlock view id) fun _ => Has obtained held := by
  rintro c ⟨rfl, rfl⟩
  unfold readBlock
  split
  · next h =>
      split at h
      · cases h
      · cases h
        exact ⟨rfl, rfl⟩
  · next h =>
      split at h
      · cases h
        exact ⟨nofun, nofun⟩
      · cases h

theorem writeShared_rule : Locked (Has obtained held) writeShared fun _ => Has obtained held := by
  rintro c ⟨rfl, rfl⟩
  exact ⟨rfl, rfl⟩

theorem writeBlock_rule (id : BlkAddress) (b : Block K V) :
    Locked (Has obtained held) (writeBlock id b) fun _ => Has obtained held := writeShared_rule

theorem undefined_rule {P : Locals → Prop} {Q : α → Locals → Prop} :
    Locked P (throw .undefined) Q := throw_rule ⟨nofun, nofun⟩

theorem rootChanged_rule (node : BlkAddress) (is_root : Bool) :
    Locked (Has obtained held) (rootChanged view node is_root) fun _ => Has obtained held := by
  cases is_root with
  | true => exact bind_rule (look_rule _) fun root => pure_rule fun _ hs => hs
  | false => exact pure_rule fun _ hs => hs

/-- The back of the deque is released and popped. -/
theorem releaseBack_rule {x : α} :
    Locked (Has (l :: obtained) (l :: held))
      (do releaseLock l; popBack; pure x) fun _ => Has obtained held := by
  refine bind_rule (releaseLock_rule List.mem_cons_self) fun _ => ?_
  rw [List.erase_cons_head]
  exact bind_rule popBack_rule fun _ => pure_rule fun _ hs => hs

/-- A call that couples its lock to its parent's. -/
theorem releaseParent_rule {parent : Option LockDescriptor} :
    Locked (Has parent.toList (l :: parent.toList)) releaseParent fun _ => Has [] [l] := by
  refine bind_rule obtainedSize_rule fun n => of_and fun hn => ?_
  cases parent with
  | none =>
      rw [if_neg (by rw [hn]; exact Nat.lt_irrefl 0)]
      exact pure_rule fun _ hs => hs
  | some p =>
      rw [if_pos (by rw [hn]; exact Nat.one_pos)]
      refine bind_rule (require_rule (by rw [hn]; rfl)) fun _ => bind_rule back_rule fun x => ?_
      refine of_and fun hx => bind_rule popBack_rule fun _ => ?_
      rw [hx]
      refine consequence (releaseLock_rule (by simp)) (fun _ hs => hs) fun _ c hc => ?_
      -- the parent may be the same node, locked twice in read mode
      have herase : (l :: [p]).erase p = [l] := by
        by_cases hl : l = p
        · rw [hl, List.erase_cons_head]
        · rw [List.erase_cons_tail (by simpa using hl), List.erase_cons_head]
      exact ⟨hc.1, hc.2.trans herase⟩

/-- Nothing is left to release. -/
theorem releaseIfBack_empty (node : BlkAddress) :
    Locked (Has [] held) (releaseIfBack node) fun _ => Has [] held := by
  refine bind_rule obtainedSize_rule fun n => of_and fun hn => ?_
  rw [if_neg (by rw [hn]; exact Nat.lt_irrefl 0)]
  exact pure_rule fun _ hs => hs

/-- The own lock is still the back. -/
theorem releaseIfBack_self :
    Locked (Has (l :: obtained) (l :: held)) (releaseIfBack l.id) fun _ => Has obtained held := by
  refine bind_rule obtainedSize_rule fun n => of_and fun hn => ?_
  rw [if_pos (by rw [hn]; exact Nat.succ_pos _)]
  refine bind_rule back_rule fun x => of_and fun hx => ?_
  rw [hx, if_pos rfl]
  refine bind_rule (releaseLock_rule List.mem_cons_self) fun _ => ?_
  rw [List.erase_cons_head]
  exact popBack_rule

/-- The back is a lock on another node. -/
theorem releaseIfBack_other {node : BlkAddress} (h : ∀ x ∈ obtained, x.id ≠ node) :
    Locked (Has obtained held) (releaseIfBack node) fun _ => Has obtained held := by
  cases obtained with
  | nil => exact releaseIfBack_empty node
  | cons x obtained =>
      refine bind_rule obtainedSize_rule fun n => of_and fun hn => ?_
      rw [if_pos (by rw [hn]; exact Nat.succ_pos _)]
      refine bind_rule back_rule fun y => of_and fun hy => ?_
      rw [hy, if_neg (h x List.mem_cons_self).symm]
      exact pure_rule fun _ hs => hs

theorem releaseSelf_rule :
    Locked (Has (l :: obtained) (l :: held)) (releaseSelf l.id) fun _ => Has obtained held := by
  refine bind_rule back_rule fun x => of_and fun hx => bind_rule popBack_rule fun _ => ?_
  rw [hx]
  refine bind_rule (require_rule (by simp)) fun _ => ?_
  exact consequence (releaseLock_rule List.mem_cons_self) (fun _ hs => hs) fun _ c hc =>
    ⟨hc.1, hc.2.trans (List.erase_cons_head ..)⟩

end Rules

/-! ## §4. The calls. -/

section Calls

variable {K V : Type} [LinearOrder K] (view : Nat → Shared K V)

/-- A search holds at most its parent's lock when it is called, and none when it
returns. -/
theorem search_balanced (key : K) : ∀ (fuel : Nat) (node : BlkAddress) (is_root : Bool)
    (parent : Option LockDescriptor),
    Locked (Has parent.toList parent.toList)
      (searchWithConcurrencyControl view key fuel node is_root) fun _ => Has [] [] := by
  intro fuel
  induction fuel with
  | zero => intro node is_root parent; exact undefined_rule
  | succ fuel ih =>
      intro node is_root parent
      refine bind_rule (getLock_rule .read node) fun l => of_and fun hl => ?_
      obtain ⟨rfl, -⟩ := hl
      refine bind_rule (rootChanged_rule node is_root) fun changed => ite_rule (fun _ => ?_)
        fun _ => ?_
      · refine bind_rule (releaseLock_rule List.mem_cons_self) fun _ => ?_
        rw [List.erase_cons_head]
        exact bind_rule (look_rule _) fun root => ih root true parent
      · refine bind_rule releaseParent_rule fun _ => bind_rule (pushBack_rule _) fun _ => ?_
        refine bind_rule (readBlock_rule node) fun n => ?_
        cases n with
        | leaf leaf => exact releaseBack_rule
        | inner inner_node =>
            refine ite_rule (fun _ => releaseBack_rule) fun _ => ?_
            split
            · exact undefined_rule
            · refine bind_rule (ih _ false (some _)) fun found => ?_
              exact bind_rule (releaseIfBack_empty node) fun _ => pure_rule fun _ hs => hs

/-- So does an optimistic insertion, whatever the modes it takes. -/
theorem optimistic_balanced (capacity : Nat) (key : K) (value : V) : ∀ (fuel : Nat)
    (node : BlkAddress) (depth : Int) (is_root : Bool) (parent : Option LockDescriptor),
    Locked (Has parent.toList parent.toList)
      (insertWithOptimisticConcurrencyControl view capacity key value fuel node depth is_root)
      fun _ => Has [] [] := by
  intro fuel
  induction fuel with
  | zero => intro node depth is_root parent; exact undefined_rule
  | succ fuel ih =>
      intro node depth is_root parent
      refine bind_rule (getLock_rule (lockType depth) node) fun l => of_and fun hl => ?_
      obtain ⟨rfl, -⟩ := hl
      refine bind_rule (rootChanged_rule node is_root) fun changed => ite_rule (fun _ => ?_)
        fun _ => ?_
      · refine bind_rule (releaseLock_rule List.mem_cons_self) fun _ => ?_
        rw [List.erase_cons_head]
        exact bind_rule (look_rule _) fun root => bind_rule (look_rule _) fun height =>
          ih root height true parent
      · refine bind_rule releaseParent_rule fun _ => bind_rule (pushBack_rule _) fun _ => ?_
        refine bind_rule (readBlock_rule node) fun n => ?_
        cases n with
        | leaf leaf =>
            exact ite_rule (fun _ => releaseBack_rule) fun _ =>
              bind_rule (writeBlock_rule node _) fun _ => releaseBack_rule
        | inner inner_node =>
            refine ite_rule (fun _ => ?_) fun _ => ?_
            · exact bind_rule (releaseIfBack_self (l := ⟨node, lockType depth⟩)) fun _ =>
                pure_rule fun _ hs => hs
            · split
              · exact undefined_rule
              · refine bind_rule (ih _ _ false (some _)) fun is_succeed => ?_
                exact bind_rule (releaseIfBack_empty node) fun _ => pure_rule fun _ hs => hs

variable {view}

omit [LinearOrder K] in
theorem growRoot_rule {obtained held : List LockDescriptor} (left right : Node K V)
    (is_root : Bool) :
    Locked (Has obtained held) (growRoot view left right is_root) fun _ => Has obtained held := by
  cases is_root with
  | false => exact pure_rule fun _ hs => hs
  | true =>
      refine bind_rule (look_rule _) fun next => ?_
      split
      · exact bind_rule (writeBlock_rule _ _) fun _ => writeShared_rule
      · exact undefined_rule

theorem insertToLeaf_rule {base : List LockDescriptor} {l : LockDescriptor} (capacity : Nat)
    (key : K) (value : V) (is_root : Bool) (leaf : LeafNode K V) :
    Locked (Has (l :: base) (l :: base)) (insertToLeaf view capacity key value l is_root leaf)
      fun _ => Has base base := by
  refine bind_rule (look_rule _) fun next => ?_
  split
  · exact bind_rule (writeBlock_rule _ _) fun _ => releaseBack_rule
  · exact bind_rule (writeBlock_rule _ _) fun _ => bind_rule (writeBlock_rule _ _) fun _ =>
      bind_rule (growRoot_rule _ _ is_root) fun _ => releaseBack_rule

/-- The own lock is released once, by the branch of the split or at the end. -/
theorem returnToInner_rule {base : List LockDescriptor} {node : BlkAddress}
    (hbase : ∀ x ∈ base, x.id ≠ node) (capacity : Nat) (is_root : Bool) (inner_node : InnerNode K)
    (target_node_index : Nat) (child_split : Option (Split K)) :
    Locked (Has (⟨node, .write⟩ :: base) (⟨node, .write⟩ :: base))
      (returnToInner view capacity node is_root inner_node target_node_index child_split)
      fun _ => Has base base := by
  have hself : Locked (Has (⟨node, .write⟩ :: base) (⟨node, .write⟩ :: base)) (releaseSelf node)
      fun _ => Has base base := releaseSelf_rule (l := ⟨node, .write⟩)
  cases child_split with
  | some child_split =>
      refine ite_rule (fun _ => ?_) fun _ => ?_
      · exact bind_rule (writeBlock_rule _ _) fun _ => bind_rule hself fun _ =>
          bind_rule (releaseIfBack_other hbase) fun _ => pure_rule fun _ hs => hs
      · refine bind_rule (look_rule _) fun next => bind_rule (writeBlock_rule _ _) fun _ =>
          bind_rule (writeBlock_rule _ _) fun _ => bind_rule (growRoot_rule _ _ is_root) fun _ =>
          bind_rule hself fun _ => bind_rule (releaseIfBack_other hbase) fun _ => ?_
        split
        · exact undefined_rule
        · exact pure_rule fun _ hs => hs
  | none =>
      have hwrite : Locked (Has (⟨node, .write⟩ :: base) (⟨node, .write⟩ :: base))
          (flushIfModified V node inner_node)
          fun _ => Has (⟨node, .write⟩ :: base) (⟨node, .write⟩ :: base) :=
        ite_rule (fun _ => writeBlock_rule _ _) fun _ => pure_rule fun _ hs => hs
      refine bind_rule hwrite fun _ => ?_
      refine bind_rule (releaseIfBack_self (l := ⟨node, .write⟩)) fun _ => ?_
      exact pure_rule fun _ hs => hs

/-- A pessimistic insertion leaves the locks of the calls above as they are. -/
theorem pessimistic_balanced (capacity : Nat) (key : K) (value : V) : ∀ (fuel : Nat)
    (node : BlkAddress) (is_root : Bool) (base : List LockDescriptor),
    Locked (Has base base)
      (insertWithPessimisticConcurrencyControl view capacity key value fuel node is_root)
      fun _ => Has base base := by
  intro fuel
  induction fuel with
  | zero => intro node is_root base; exact undefined_rule
  | succ fuel ih =>
      intro node is_root base
      refine bind_rule (getLock_rule .write node) fun l => of_and fun hl => ?_
      obtain ⟨rfl, hfree⟩ := hl
      refine bind_rule (rootChanged_rule node is_root) fun changed => ite_rule (fun _ => ?_)
        fun _ => ?_
      · refine bind_rule (releaseLock_rule List.mem_cons_self) fun _ => ?_
        rw [List.erase_cons_head]
        exact bind_rule (look_rule _) fun root => ih root true base
      · refine bind_rule (pushBack_rule _) fun _ => bind_rule (readBlock_rule node) fun n => ?_
        cases n with
        | leaf leaf => exact insertToLeaf_rule capacity key value is_root leaf
        | inner inner_node =>
            simp only
            split
            · exact undefined_rule
            · exact bind_rule (ih _ false _) fun child_split =>
                returnToInner_rule (hfree rfl) capacity is_root _ _ child_split

/-- The end of a run: no lock is left, or it stopped without fault. -/
def Balanced {α : Type} (result : Except Stop (α × Locals)) : Prop :=
  match result with
  | .ok (_, c) => c.obtainedLocks = [] ∧ c.held = []
  | .error e => e ≠ .assertion ∧ e ≠ .unheld

theorem Locked.balanced {α : Type} {x : Prog Locals Stop α}
    (h : Locked (Has [] []) x fun _ => Has [] []) (clock : Nat) :
    Balanced (x ⟨clock, [], []⟩) := by
  have hrun := h ⟨clock, [], []⟩ ⟨rfl, rfl⟩
  unfold Balanced
  match hx : x ⟨clock, [], []⟩ with
  | .ok (a, c) =>
      rw [hx] at hrun
      exact hrun
  | .error e =>
      rw [hx] at hrun
      exact hrun

/-- A full root leaf is split: the call ends, with no lock. -/
example : ∃ c, insertWithPessimisticConcurrencyControl
    (fun _ => (⟨0, 1, fun _ => some (.leaf 0 none [(1, 10), (2, 20)]), 1⟩ : Shared Nat Nat))
    2 3 30 1 0 true ⟨0, [], []⟩ = .ok (some ⟨1, 2⟩, c) := ⟨_, rfl⟩

end Calls

end ConcurrentBPlusTree

end NvmTree
