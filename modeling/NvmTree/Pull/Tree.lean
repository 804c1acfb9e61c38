/-
  NvmTree.Pull.Tree — `pull_based_b_plus_tree`: contexts driven by one worker.

  A request is served by a context, a resumable state machine: `run` executes the
  `switch` on `current_state` until the context has to wait for a barrier or for
  I/O, or is done.  The steps of the system are those of the claims about it: a
  client submits a request, the worker admits one, runs a context of the admission
  list or of a ready list, or delivers an I/O completion.  The order in which the
  worker does so is left open, and so is the order of completions.

  I/O is modelled with and without delay.  Without (`deferred = false`), a read or
  write takes effect when it is submitted, as in `file_blk_accessor`; with delay,
  at some moment (`effect`) between submission and completion.

  A failing assertion, a `case` that falls through and a use of what is not there
  are `Fault`s.  `-1` for a node or a state is `none`.  Cycle counters, tags and
  the sorting of the ready lists are left out, since any context of a list may be
  run next; so are the freeing of node objects and the estimator.
-/
import NvmTree.Node.Stored
import NvmTree.RangeTree.World

namespace NvmTree

open RangeTree

namespace PullBasedBPlusTree

/-! ## §1. Barriers. -/

/-- `READ_BARRIER` and `WRITE_BARRIER`. -/
abbrev BarrierType := Mode

structure BarrierToken where
  barrierId : BlkAddress
  type : BarrierType
  deriving Repr, DecidableEq

/-- `context_barrier`; the front of the queue comes first. -/
structure ContextBarrier (C : Type*) where
  readBarriers : Int
  writeBarriers : Int
  pendingBarrierRequests : List (C × BarrierType)
  deriving Repr, DecidableEq

namespace ContextBarrier

variable {C : Type*}

def new : ContextBarrier C := ⟨0, 0, []⟩

/-- The condition of `grant_read_barrier_request`, of `grant_write_barrier_request`
and of `offer_barrier`. -/
def grants (b : ContextBarrier C) : BarrierType → Bool
  | .read => b.writeBarriers = 0
  | .write => b.writeBarriers = 0 && b.readBarriers = 0

/-- One more barrier of the type. -/
def add (b : ContextBarrier C) : BarrierType → ContextBarrier C
  | .read => { b with readBarriers := b.readBarriers + 1 }
  | .write => { b with writeBarriers := b.writeBarriers + 1 }

/-- One barrier of the type less. -/
def sub (b : ContextBarrier C) : BarrierType → ContextBarrier C
  | .read => { b with readBarriers := b.readBarriers - 1 }
  | .write => { b with writeBarriers := b.writeBarriers - 1 }

def push (b : ContextBarrier C) (c : C) (type : BarrierType) : ContextBarrier C :=
  { b with pendingBarrierRequests := b.pendingBarrierRequests ++ [(c, type)] }

end ContextBarrier

/-! ## §2. Requests and contexts. -/

structure SearchRequest (K : Type*) where
  id : Nat
  key : K
  /-- Whether there is a callback, and a semaphore. -/
  cbF : Bool
  semaphore : Bool
  ownership : Bool
  deriving Repr, DecidableEq

structure InsertRequest (K V : Type*) where
  id : Nat
  key : K
  value : V
  cbF : Bool
  semaphore : Bool
  ownership : Bool
  deriving Repr, DecidableEq

inductive Request (K V : Type*) where
  | search (r : SearchRequest K)
  | insert (r : InsertRequest K V)
  deriving Repr, DecidableEq

def Request.id {K V : Type*} : Request K V → Nat
  | .search r => r.id
  | .insert r => r.id

/-- The values of `current_state`. -/
inductive CtxState where
  | s0 | s10001 | s1 | s2 | s9 | s10 | s11 | s12 | s13
  deriving Repr, DecidableEq

/-- A context object: a number of the free stack it belongs to. -/
inductive ContextId where
  | search (i : Nat)
  | insert (i : Nat)
  deriving Repr, DecidableEq

/-- `call_back_context`; the back of the deque comes first. -/
structure CallBackContext where
  currentState : CtxState
  nextState : Option CtxState
  obtainedBarriers : List BarrierToken
  deriving Repr, DecidableEq

structure Split (K V : Type*) where
  left : Node K V
  right : Node K V
  boundaryKey : K
  deriving Repr, DecidableEq

structure ParentNodeContext (K : Type*) where
  node : InnerNode K
  position : Nat
  deriving Repr, DecidableEq

/-- `search_context`. -/
structure SearchContext (K V : Type*) where
  request : Option (SearchRequest K)
  nodeRef : BlkAddress
  buffer : Option (Block K V)
  deriving Repr, DecidableEq

/-- `insert_context`; the back of `pending_parent_nodes_` comes first. -/
structure InsertContext (K V : Type*) where
  request : Option (InsertRequest K V)
  nodeRef : Option BlkAddress
  buffer : Option (Block K V)
  pendingParentNodes : List (ParentNodeContext K)
  writeBackCompletionCount : Nat
  writeBackCompletionTarget : Nat
  childNodeSplit : Bool
  split : Option (Split K V)
  freeSlotAvailableInParent : Bool
  parentBoundaryUpdate : Bool
  referToRoot : Bool
  optimistic : Bool
  nextVisitIsLeafNode : Bool
  currentNodeLevel : Int
  lastState1 : Bool
  /-- Ghost: state 1 was entered, and state 2 not since. -/
  awaitsState2 : Bool
  deriving Repr, DecidableEq

inductive IoType where
  | readIo
  | writeIo
  deriving Repr, DecidableEq

/-- A read or write that is submitted and not completed. -/
structure PendingIo (K V : Type*) where
  context : ContextId
  type : IoType
  address : BlkAddress
  /-- What is written. -/
  data : Option (Block K V)
  applied : Bool
  deriving Repr, DecidableEq

/-- What the clients see of a request. -/
inductive LogEvent (K V : Type*) where
  | submit (request : Request K V)
  | admission (request : Request K V)
  | callback (id : Nat)
  | release (id : Nat)
  | finishSearch (id : Nat) (found : Option V)
  | finishInsert (id : Nat)
  deriving Repr, DecidableEq

/-- Where the code has no way to go on as intended. -/
inductive Fault where
  /-- `assert(current_node_level_ == 1)`. -/
  | leafLevel
  /-- `assert(obtained_barriers_.back().type_ == WRITE_BARRIER)`. -/
  | leafBarrier
  /-- `obtained_barriers_.back()` of an empty deque. -/
  | noToken
  /-- State 10001 takes a second token that is not there. -/
  | noSecondToken
  /-- `assert(!last_state_1)`, or state 1 is entered again before state 2. -/
  | state1Twice
  /-- State 9 with a split and no pending parent falls through to state 10. -/
  | noPendingParent
  /-- The block has no node type, or the state no `case`. -/
  | fallThrough
  /-- `assert(this->obtained_barriers_.size() <= 2)`. -/
  | searchTokens
  /-- `assert(next_state >= 0)`. -/
  | noNextState
  /-- `assert(!free_…_contexts_.empty())`. -/
  | emptyStack
  /-- An I/O on address -1, a missing request, split or slot. -/
  | nullPointer
  /-- `run` calls itself without end. -/
  | endless
  deriving Repr, DecidableEq

/-! ## §3. The state. -/

structure State (K V : Type*) where
  blocks : BlkAddress → Option (Block K V)
  allocator : Allocator
  /-- `root_`: the address, and the node object it is bound to. -/
  root : BlkAddress
  rootInstance : Option (InnerNode K)
  depth : Nat
  barriers : BlkAddress → ContextBarrier ContextId
  contexts : ContextId → CallBackContext
  searches : Nat → SearchContext K V
  inserts : Nat → InsertContext K V
  freeSearchContexts : List Nat
  freeInsertContexts : List Nat
  /-- Requests counted in `pending_request_` and not pushed yet. -/
  submitting : List (Request K V)
  requestQueue : List (Request K V)
  pendingRequest : Int
  freeContextSlots : Int
  admissionContexts : List ContextId
  blkReadyContexts : List ContextId
  barrierReadyContexts : List ContextId
  pendingIo : List (PendingIo K V)
  workingThreadTerminateFlag : Bool
  nextId : Nat
  log : List (LogEvent K V)

namespace State

variable {K V : Type*}

def setInsert (s : State K V) (i : Nat) (c : InsertContext K V) : State K V :=
  { s with inserts := Function.update s.inserts i c }

def setSearch (s : State K V) (i : Nat) (c : SearchContext K V) : State K V :=
  { s with searches := Function.update s.searches i c }

def setContext (s : State K V) (c : ContextId) (b : CallBackContext) : State K V :=
  { s with contexts := Function.update s.contexts c b }

def setNextState (s : State K V) (c : ContextId) (st : CtxState) : State K V :=
  s.setContext c { s.contexts c with nextState := some st }

/-- `transition_to_next_state`. -/
def transition (s : State K V) (c : ContextId) : State K V :=
  s.setContext c { s.contexts c with
    currentState := (s.contexts c).nextState.getD (s.contexts c).currentState }

/-- `set_next_state(st)` and `transition_to_next_state()`. -/
def enter (s : State K V) (c : ContextId) (st : CtxState) : State K V :=
  s.setContext c { s.contexts c with currentState := st, nextState := some st }

def addToken (s : State K V) (c : ContextId) (t : BarrierToken) : State K V :=
  s.setContext c { s.contexts c with obtainedBarriers := t :: (s.contexts c).obtainedBarriers }

def setBarrier (s : State K V) (x : BlkAddress) (b : ContextBarrier ContextId) : State K V :=
  { s with barriers := Function.update s.barriers x b }

/-- `request_read_barrier` and `request_write_barrier`: whether it was granted. -/
def requestBarrier (s : State K V) (c : ContextId) (x : BlkAddress) (type : BarrierType) :
    State K V × Bool :=
  if (s.barriers x).grants type then
    ((s.setBarrier x ((s.barriers x).add type)).addToken c ⟨x, type⟩, true)
  else (s.setBarrier x ((s.barriers x).push c type), false)

/-- `fire_context` for the front of the queue of `x`, which is taken off. -/
def fireContext (s : State K V) (x : BlkAddress) (c : ContextId) (type : BarrierType)
    (rest : List (ContextId × BarrierType)) : State K V :=
  let s := s.setBarrier x { (s.barriers x).add type with pendingBarrierRequests := rest }
  let s := (s.addToken c ⟨x, type⟩).transition c
  { s with barrierReadyContexts := s.barrierReadyContexts ++ [c] }

/-- The loop of `offer_barrier`, for at most `fuel` rounds. -/
def offerBarrier (x : BlkAddress) : Nat → State K V → State K V
  | 0, s => s
  | fuel + 1, s =>
      match (s.barriers x).pendingBarrierRequests with
      | [] => s
      | (c, type) :: rest =>
          if (s.barriers x).grants type then offerBarrier x fuel (s.fireContext x c type rest)
          else s

/-- `remove_read_barrier` and `remove_write_barrier`. -/
def removeBarrier (s : State K V) (x : BlkAddress) (type : BarrierType) : State K V :=
  offerBarrier x (s.barriers x).pendingBarrierRequests.length
    (s.setBarrier x ((s.barriers x).sub type))

/-- The context keeps `kept` of its tokens and gives back `token`. -/
def giveBack (s : State K V) (c : ContextId) (kept : List BarrierToken) (token : BarrierToken) :
    State K V :=
  (s.setContext c { s.contexts c with obtainedBarriers := kept }).removeBarrier token.barrierId
    token.type

/-- `release_all_barriers`, with the last `n` tokens taken off before and put back
after it; `fuel` bounds the loop. -/
def releaseBarriers (c : ContextId) (n : Nat) : Nat → State K V → State K V
  | 0, s => s
  | fuel + 1, s =>
      let tokens := (s.contexts c).obtainedBarriers
      match tokens.drop n with
      | [] => s
      | token :: rest => releaseBarriers c n fuel (s.giveBack c (tokens.take n ++ rest) token)

def releaseAllBut (s : State K V) (c : ContextId) (n : Nat) : State K V :=
  releaseBarriers c n (s.contexts c).obtainedBarriers.length s

/-- `remove_read_barrier` of the front token, which is popped. -/
def releaseFront (s : State K V) (c : ContextId) : State K V :=
  match (s.contexts c).obtainedBarriers.getLast? with
  | none => s
  | some token =>
      s.giveBack c (s.contexts c).obtainedBarriers.dropLast ⟨token.barrierId, .read⟩

/-- The loop over all tokens at the end of a search, from the front. -/
def releaseFronts (c : ContextId) : Nat → State K V → State K V
  | 0, s => s
  | fuel + 1, s => releaseFronts c fuel (s.releaseFront c)

/-- What a read leaves in the buffer of its context. -/
def setBuffer (s : State K V) (c : ContextId) (b : Option (Block K V)) : State K V :=
  match c with
  | .search i => s.setSearch i { s.searches i with buffer := b }
  | .insert i => s.setInsert i { s.inserts i with buffer := b }

/-- The read or write takes effect on the block store. -/
def apply (s : State K V) (io : PendingIo K V) : State K V :=
  match io.type with
  | .readIo => s.setBuffer io.context (s.blocks io.address)
  | .writeIo => { s with blocks := Function.update s.blocks io.address io.data }

/-- An I/O is submitted; without delay it takes effect at once. -/
def submitIo (deferred : Bool) (s : State K V) (io : PendingIo K V) : State K V :=
  let s := if deferred then s else s.apply io
  { s with pendingIo := s.pendingIo ++ [{ io with applied := !deferred }] }

def asynchRead (deferred : Bool) (s : State K V) (c : ContextId) (x : BlkAddress) : State K V :=
  s.submitIo deferred ⟨c, .readIo, x, none, false⟩

def asynchWrite (deferred : Bool) (s : State K V) (c : ContextId) (x : BlkAddress)
    (b : Block K V) : State K V :=
  s.submitIo deferred ⟨c, .writeIo, x, some b, false⟩

/-- `allocate()` gave `s.allocator.next`. -/
def allocate (s : State K V) : State K V := { s with allocator := s.allocator.allocate }

def addLog (s : State K V) (es : List (LogEvent K V)) : State K V := { s with log := s.log ++ es }

/-- The counters after a request is done, and what its client sees. -/
def graduate (s : State K V) (id : Nat) (cbF semaphore : Bool) (done : LogEvent K V) : State K V :=
  { s with
    pendingRequest := s.pendingRequest - 1
    freeContextSlots := s.freeContextSlots + 1 }.addLog
      ((if cbF then [LogEvent.callback id] else [])
        ++ (if semaphore then [LogEvent.release id] else []) ++ [done])

end State

/-- What a `case` of `run` does: call `run` again, return, or fail. -/
inductive Outcome (K V : Type*) where
  | again (s : State K V)
  | stop (s : State K V)
  | fault (f : Fault)

/-! ## §4. `insert_context`. -/

section Insert

variable {K V : Type*} [LinearOrder K] (capacity : Nat) (deferred : Bool) (s : State K V) (i : Nat)

def insertState0 : Outcome K V :=
  let c := { s.inserts i with lastState1 := false }
  let c := if c.nodeRef = none then
      { c with referToRoot := true, nodeRef := some s.root, currentNodeLevel := s.depth }
    else c
  let s := (s.setInsert i c).setNextState (.insert i) .s10001
  let type : BarrierType := if c.optimistic && !c.nextVisitIsLeafNode then .read else .write
  match s.requestBarrier (.insert i) (c.nodeRef.getD s.root) type with
  | (s, true) => .again (s.transition (.insert i))
  | (s, false) => .stop s

def insertState10001 : Outcome K V :=
  let c := { s.inserts i with lastState1 := false }
  match (s.contexts (.insert i)).obtainedBarriers with
  | [] => .fault .noToken
  | latest :: others =>
      if c.referToRoot && decide (latest.barrierId ≠ s.root) then
        -- the root was updated
        let s := s.setInsert i { c with referToRoot := true, nodeRef := none }
        .again ((s.releaseAllBut (.insert i) 0).enter (.insert i) .s0)
      else
        let s := s.setInsert i { c with referToRoot := false }
        if c.optimistic then .again ((s.releaseAllBut (.insert i) 1).enter (.insert i) .s1)
        else if c.freeSlotAvailableInParent && !c.parentBoundaryUpdate then
          if others.isEmpty then .fault .noSecondToken
          else .again ((s.releaseAllBut (.insert i) 2).enter (.insert i) .s1)
        else .again (s.enter (.insert i) .s1)

def insertState1 : Outcome K V :=
  let c := s.inserts i
  if c.lastState1 || c.awaitsState2 then .fault .state1Twice
  else
    match c.nodeRef with
    | none => .fault .nullPointer
    | some node =>
        let s := s.setInsert i { c with lastState1 := true, awaitsState2 := true }
        .stop ((s.setNextState (.insert i) .s2).asynchRead deferred (.insert i) node)

/-- State 2 at a leaf. -/
def insertLeaf (c : InsertContext K V) (leaf : LeafNode K V) : Outcome K V :=
  match c.request, c.nodeRef with
  | some r, some node =>
      if c.optimistic && decide (leaf.size = capacity) then
        .again ((s.setInsert i c).enter (.insert i) .s13)
      else
        match leaf.insertWithSplitSupport capacity r.key r.value s.allocator.next with
        | (left, none) =>
            let c := { c with
              childNodeSplit := false
              writeBackCompletionTarget := 1
              writeBackCompletionCount := 0 }
            let s := (s.setInsert i c).setNextState (.insert i) .s10
            .stop (s.asynchWrite deferred (.insert i) node left.serialize)
        | (left, some (right, boundary_key)) =>
            let c := { c with
              childNodeSplit := true
              split := some ⟨.leaf left, .leaf right, boundary_key⟩
              writeBackCompletionTarget := 2
              writeBackCompletionCount := 0 }
            let s := (s.allocate.setInsert i c).setNextState (.insert i)
              (if left.selfRep = s.root then .s12 else .s10)
            .stop ((s.asynchWrite deferred (.insert i) node left.serialize).asynchWrite deferred
              (.insert i) right.selfRep right.serialize)
  | _, _ => .fault .nullPointer

/-- State 2 at an inner node. -/
def insertInner (c : InsertContext K V) (inner_node : InnerNode K) : Outcome K V :=
  match c.request with
  | none => .fault .nullPointer
  | some r =>
      let target_node_index := inner_node.locateChildIndex r.key
      let exceed_left_boundary := decide (target_node_index < 0)
      if exceed_left_boundary && c.optimistic then
        .again ((s.setInsert i c).enter (.insert i) .s13)
      else
        let inner_node := if exceed_left_boundary then inner_node.setFirstKey r.key else inner_node
        match inner_node.slots[target_node_index.toNat]? with
        | none => .fault .nullPointer
        | some (_, child) =>
            let c := { c with
              pendingParentNodes := ⟨inner_node, target_node_index.toNat⟩ :: c.pendingParentNodes
              nodeRef := some child
              freeSlotAvailableInParent := inner_node.hasFreeSlot capacity
              parentBoundaryUpdate := exceed_left_boundary
              nextVisitIsLeafNode := decide (c.currentNodeLevel = 2)
              currentNodeLevel := c.currentNodeLevel - 1 }
            .again ((s.setInsert i c).enter (.insert i) .s0)

def insertState2 : Outcome K V :=
  let c := { s.inserts i with lastState1 := false, awaitsState2 := false }
  match c.buffer.map Block.deserialize with
  | none => .fault .fallThrough
  | some (.leaf leaf) =>
      if c.currentNodeLevel ≠ 1 then .fault .leafLevel
      else
        match (s.contexts (.insert i)).obtainedBarriers with
        | [] => .fault .noToken
        | latest :: _ =>
            if latest.type ≠ .write then .fault .leafBarrier
            else insertLeaf capacity deferred s i c leaf
  | some (.inner inner_node) => insertInner capacity s i c inner_node

/-- State 9 after a split, with the parent `p` of the node that was split. -/
def insertAddSplit (c : InsertContext K V) (p : ParentNodeContext K)
    (parents : List (ParentNodeContext K)) : Outcome K V :=
  match c.split with
  | none => .fault .nullPointer
  | some split =>
      if p.node.size < capacity then
        let parent_node :=
          p.node.insertInnerNode split.right.selfRep split.boundaryKey (p.position + 1)
        let c := { c with
          pendingParentNodes := parents
          nodeRef := some p.node.selfRep
          childNodeSplit := false
          writeBackCompletionTarget := 1
          writeBackCompletionCount := 0 }
        let s := (s.setInsert i c).setNextState (.insert i) .s10
        .stop (s.asynchWrite deferred (.insert i) parent_node.selfRep (parent_node.serialize V))
      else
        let halves := p.node.splitInsert capacity p.position split.right.selfRep split.boundaryKey
          s.allocator.next
        match halves.2.slots with
        | [] => .fault .nullPointer
        | (boundary_key, _) :: _ =>
            let c := { c with
              pendingParentNodes := parents
              nodeRef := some p.node.selfRep
              childNodeSplit := true
              split := some ⟨.inner halves.1, .inner halves.2, boundary_key⟩
              writeBackCompletionTarget := 2
              writeBackCompletionCount := 0 }
            let s := (s.allocate.setInsert i c).setNextState (.insert i)
              (if s.root ≠ halves.1.selfRep then .s10 else .s12)
            .stop ((s.asynchWrite deferred (.insert i) halves.1.selfRep
              (halves.1.serialize V)).asynchWrite deferred (.insert i) halves.2.selfRep
                (halves.2.serialize V))

/-- The `while` loop of state 9: the next parent that is modified is written. -/
def insertFlush (c : InsertContext K V) : List (ParentNodeContext K) → Outcome K V
  | [] => .again ((s.setInsert i { c with pendingParentNodes := [] }).enter (.insert i) .s11)
  | p :: parents =>
      if p.node.modified then
        let c := { c with
          pendingParentNodes := parents
          writeBackCompletionTarget := 1
          writeBackCompletionCount := 0 }
        let s := (s.setInsert i c).setNextState (.insert i) .s10
        .stop (s.asynchWrite deferred (.insert i) p.node.selfRep (p.node.serialize V))
      else insertFlush c parents

def insertState9 : Outcome K V :=
  let c := { s.inserts i with lastState1 := false }
  if c.childNodeSplit then
    match c.pendingParentNodes with
    | [] => .fault .noPendingParent
    | p :: parents => insertAddSplit capacity deferred s i c p parents
  else insertFlush deferred s i c c.pendingParentNodes

def insertState10 : Outcome K V :=
  let c := s.inserts i
  let c := { c with
    lastState1 := false
    writeBackCompletionCount := c.writeBackCompletionCount + 1 }
  let s := s.setInsert i c
  if c.writeBackCompletionCount = c.writeBackCompletionTarget then .again (s.enter (.insert i) .s9)
  else .stop s

def insertState11 : Outcome K V :=
  let c := { s.inserts i with lastState1 := false }
  match c.request with
  | none => .fault .nullPointer
  | some r =>
      let s := s.setInsert i { c with request := if r.ownership then none else some r }
      let s := s.releaseAllBut (.insert i) 0
      let s := s.graduate r.id r.cbF r.semaphore (.finishInsert r.id)
      .stop { s with freeInsertContexts := i :: s.freeInsertContexts }

/-- The end of state 12: the new root over the two halves of the old one. -/
def insertNewRoot (c : InsertContext K V) (split : Split K V) (kl kr : K) : Outcome K V :=
  let new_inner_node := (InnerNode.ofChildren s.allocator.next (kl, split.left.selfRep)
    (kr, split.right.selfRep)).markModified
  let c := { c with
    writeBackCompletionCount := 0
    writeBackCompletionTarget := 1
    childNodeSplit := false }
  let s := { s.allocate with
    root := new_inner_node.selfRep
    rootInstance := some new_inner_node
    depth := s.depth + 1 }
  let s := (s.setInsert i c).setNextState (.insert i) .s11
  .stop (s.asynchWrite deferred (.insert i) new_inner_node.selfRep (new_inner_node.serialize V))

def insertState12 : Outcome K V :=
  let c := s.inserts i
  let c := { c with
    lastState1 := false
    writeBackCompletionCount := c.writeBackCompletionCount + 1 }
  if c.writeBackCompletionCount = c.writeBackCompletionTarget then
    match c.split with
    | none => .fault .nullPointer
    | some split =>
        match split.left.getLeftmostKey, split.right.getLeftmostKey with
        | some kl, some kr => insertNewRoot deferred s i c split kl kr
        | _, _ => .fault .nullPointer
  else .stop (s.setInsert i c)

def insertState13 : Outcome K V :=
  let c := { s.inserts i with
    lastState1 := false
    optimistic := false
    freeSlotAvailableInParent := false
    referToRoot := false
    nextVisitIsLeafNode := decide (s.depth = 1)
    currentNodeLevel := s.depth
    nodeRef := none }
  .again (((s.setInsert i c).releaseAllBut (.insert i) 0).enter (.insert i) .s0)

def insertCase : Outcome K V :=
  match (s.contexts (.insert i)).currentState with
  | .s0 => insertState0 s i
  | .s10001 => insertState10001 s i
  | .s1 => insertState1 deferred s i
  | .s2 => insertState2 capacity deferred s i
  | .s9 => insertState9 capacity deferred s i
  | .s10 => insertState10 s i
  | .s11 => insertState11 s i
  | .s12 => insertState12 deferred s i
  | .s13 => insertState13 s i

end Insert

/-! ## §5. `search_context`. -/

section Search

variable {K V : Type*} [LinearOrder K] (deferred : Bool) (s : State K V) (i : Nat)

def searchState0 : Outcome K V :=
  let s := s.setNextState (.search i) .s1
  match s.requestBarrier (.search i) (s.searches i).nodeRef .read with
  | (s, true) => .again (s.transition (.search i))
  | (s, false) => .stop s

def searchState1 : Outcome K V :=
  if 2 < (s.contexts (.search i)).obtainedBarriers.length then .fault .searchTokens
  else
    let s := if (s.contexts (.search i)).obtainedBarriers.length = 2 then
        s.releaseFront (.search i)
      else s
    .stop ((s.setNextState (.search i) .s2).asynchRead deferred (.search i)
      (s.searches i).nodeRef)

/-- The end of a search. -/
def searchFinish (r : SearchRequest K) (found : Option V) : Outcome K V :=
  let s := s.setSearch i { s.searches i with request := if r.ownership then none else some r }
  let s := s.graduate r.id r.cbF r.semaphore (.finishSearch r.id found)
  let s := State.releaseFronts (.search i) (s.contexts (.search i)).obtainedBarriers.length s
  .stop { s with freeSearchContexts := i :: s.freeSearchContexts }

def searchState2 : Outcome K V :=
  match (s.searches i).request with
  | none => .fault .nullPointer
  | some r =>
      match (s.searches i).buffer.map Block.deserialize with
      | none => .fault .fallThrough
      | some (.leaf leaf) => searchFinish s i r (leaf.search r.key)
      | some (.inner inner_node) =>
          let child_index := inner_node.locateChildIndex r.key
          if child_index < 0 then searchFinish s i r none
          else
            match inner_node.slots[child_index.toNat]? with
            | none => .fault .nullPointer
            | some (_, child) =>
                .again ((s.setSearch i { s.searches i with nodeRef := child }).enter (.search i) .s0)

def searchCase : Outcome K V :=
  match (s.contexts (.search i)).currentState with
  | .s0 => searchState0 s i
  | .s1 => searchState1 deferred s i
  | .s2 => searchState2 s i
  | _ => .fault .fallThrough

end Search

/-! ## §6. The worker and the clients. -/

section Steps

variable {K V : Type*} [LinearOrder K]

/-- One `case` of `run`. -/
def ctxCase (capacity : Nat) (deferred : Bool) (s : State K V) : ContextId → Outcome K V
  | .search i => searchCase deferred s i
  | .insert i => insertCase capacity deferred s i

/-- `run`, for at most `fuel` calls of itself. -/
def runContext (capacity : Nat) (deferred : Bool) (c : ContextId) :
    Nat → State K V → Except Fault (State K V)
  | 0, _ => .error .endless
  | fuel + 1, s =>
      match ctxCase capacity deferred s c with
      | .again s => runContext capacity deferred c fuel s
      | .stop s => .ok s
      | .fault f => .error f

/-- More calls of `run` than one activation ever makes (`runContext_ok`). -/
def runFuel : Nat := 16

/-- `search_context::init` and `insert_context::init`. -/
def initSearch (s : State K V) (i : Nat) (r : SearchRequest K) : State K V :=
  (s.setSearch i { s.searches i with request := some r, nodeRef := s.root }).setContext (.search i)
    { s.contexts (.search i) with currentState := .s0, nextState := none }

def initInsert (s : State K V) (i : Nat) (r : InsertRequest K V) : State K V :=
  (s.setInsert i { s.inserts i with
    request := some r
    nodeRef := none
    freeSlotAvailableInParent := false
    referToRoot := false
    optimistic := true
    pendingParentNodes := []
    nextVisitIsLeafNode := decide (s.depth = 1)
    currentNodeLevel := s.depth }).setContext (.insert i)
      { s.contexts (.insert i) with currentState := .s0, nextState := none }

/-- One round of the loop of `admission`, for the request at the front. -/
def admitRequest (s : State K V) (r : Request K V) (queue : List (Request K V)) :
    Except Fault (State K V) :=
  let s := { s with
    requestQueue := queue
    freeContextSlots := s.freeContextSlots - 1 }.addLog [.admission r]
  match r with
  | .search r =>
      match s.freeSearchContexts with
      | [] => .error .emptyStack
      | i :: rest =>
          .ok { initSearch { s with freeSearchContexts := rest } i r with
            admissionContexts := s.admissionContexts ++ [.search i] }
  | .insert r =>
      match s.freeInsertContexts with
      | [] => .error .emptyStack
      | i :: rest =>
          .ok { initInsert { s with freeInsertContexts := rest } i r with
            admissionContexts := s.admissionContexts ++ [.insert i] }

/-- The list a context is taken from to be run. -/
inductive ReadyList where
  | admission
  | blk
  | barrier
  deriving Repr, DecidableEq

def State.takeReady (s : State K V) (n : Nat) : ReadyList → Option (ContextId × State K V)
  | .admission => s.admissionContexts[n]?.map (fun c =>
      (c, { s with admissionContexts := s.admissionContexts.eraseIdx n }))
  | .blk => s.blkReadyContexts[n]?.map (fun c =>
      (c, { s with blkReadyContexts := s.blkReadyContexts.eraseIdx n }))
  | .barrier => s.barrierReadyContexts[n]?.map (fun c =>
      (c, { s with barrierReadyContexts := s.barrierReadyContexts.eraseIdx n }))

/-- A request as its client makes it; it gets its number when it is submitted. -/
inductive Op (K V : Type*) where
  | search (key : K)
  | insert (key : K) (value : V)
  deriving Repr, DecidableEq

def Op.request (id : Nat) (cbF semaphore ownership : Bool) : Op K V → Request K V
  | .search key => .search ⟨id, key, cbF, semaphore, ownership⟩
  | .insert key value => .insert ⟨id, key, value, cbF, semaphore, ownership⟩

/-- The capacity of `request_queue_`. -/
def requestQueueCapacity : Nat := 256

inductive Action (K V : Type*) where
  /-- A client counts its request in `pending_request_`, … -/
  | submit (op : Op K V) (cbF semaphore ownership : Bool)
  /-- … and pushes it to the queue. -/
  | push (n : Nat)
  | admission
  | run (list : ReadyList) (n : Nat)
  | effect (n : Nat)
  | complete (n : Nat)
  | terminate
  deriving Repr, DecidableEq

/-- One step of the system; `none` when the action is not possible. -/
def step (capacity : Nat) (deferred : Bool) (s : State K V) :
    Action K V → Option (Except Fault (State K V))
  | .submit op cbF semaphore ownership =>
      let r := op.request s.nextId cbF semaphore ownership
      some (.ok ({ s with
        nextId := s.nextId + 1
        pendingRequest := s.pendingRequest + 1
        submitting := s.submitting ++ [r] }.addLog [.submit r]))
  | .push n =>
      match s.submitting[n]? with
      | none => none
      | some r =>
          if s.requestQueue.length < requestQueueCapacity then
            some (.ok { s with
              submitting := s.submitting.eraseIdx n
              requestQueue := s.requestQueue ++ [r] })
          else none
  | .admission =>
      if s.freeContextSlots = 0 then none
      else
        match s.requestQueue with
        | [] => none
        | r :: queue => some (admitRequest s r queue)
  | .run list n =>
      match s.takeReady n list with
      | none => none
      | some (c, s) => some (runContext capacity deferred c runFuel s)
  | .effect n =>
      match s.pendingIo[n]? with
      | none => none
      | some io =>
          if io.applied then none
          else some (.ok { s.apply io with
            pendingIo := s.pendingIo.modify n (fun io => { io with applied := true }) })
  | .complete n =>
      match s.pendingIo[n]? with
      | none => none
      | some io =>
          if !io.applied then none
          else if (s.contexts io.context).nextState = none then some (.error .noNextState)
          else
            let s := { s with pendingIo := s.pendingIo.eraseIdx n }.transition io.context
            some (.ok { s with blkReadyContexts := s.blkReadyContexts ++ [io.context] })
  | .terminate => some (.ok { s with workingThreadTerminateFlag := true })

/-- `terminated()`. -/
def terminated (s : State K V) : Bool :=
  s.workingThreadTerminateFlag && decide (s.pendingRequest ≤ 0)

/-- The state after a list of steps that are all possible and do not fail. -/
def run (capacity : Nat) (deferred : Bool) : State K V → List (Action K V) → Option (State K V)
  | s, [] => some s
  | s, a :: as =>
      match step capacity deferred s a with
      | some (.ok s) => run capacity deferred s as
      | _ => none

/-- A context object that was never used. -/
def SearchContext.new : SearchContext K V := ⟨none, 0, none⟩

def InsertContext.new : InsertContext K V :=
  ⟨none, none, none, [], 0, 0, false, none, false, false, false, true, false, 0, false, false⟩

/-- A tree of the given blocks, with all contexts free and no request yet. -/
def start (queueLength : Nat) (blocks : BlkAddress → Option (Block K V)) (allocator : Allocator)
    (root : BlkAddress) (depth : Nat) : State K V where
  blocks := blocks
  allocator := allocator
  root := root
  rootInstance := none
  depth := depth
  barriers := fun _ => ContextBarrier.new
  contexts := fun _ => ⟨.s0, none, []⟩
  searches := fun _ => SearchContext.new
  inserts := fun _ => InsertContext.new
  freeSearchContexts := List.range queueLength
  freeInsertContexts := List.range queueLength
  submitting := []
  requestQueue := []
  pendingRequest := 0
  freeContextSlots := queueLength
  admissionContexts := []
  blkReadyContexts := []
  barrierReadyContexts := []
  pendingIo := []
  workingThreadTerminateFlag := false
  nextId := 0
  log := []

/-- After `init`: one empty leaf. -/
def init (queueLength : Nat) : State K V :=
  start queueLength (Function.update (fun _ => none) 0 (some (LeafNode.new 0).serialize))
    ⟨[], 1⟩ 0 1

end Steps

end PullBasedBPlusTree

end NvmTree
