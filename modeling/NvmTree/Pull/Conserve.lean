/-
  NvmTree.Pull.Conserve — the books stay in order inside `run`.

  Every `case` of the two state machines keeps the books of `NvmTree.Pull.Books`, with
  or without delay of the I/O.

  Main results: `insertCase_keeps` and `searchCase_keeps`, put together from the ways
  in which a `case` ends.
-/
import NvmTree.Pull.Books

namespace NvmTree

open RangeTree

namespace PullBasedBPlusTree

variable {K V : Type*} {q : Nat} {s : State K V} {ph : ContextId → Phase} {c : ContextId}
  {i : Nat}

/-! ## §1. The context that runs. -/

/-- Between the steps. -/
structure Books (q : Nat) (s : State K V) (ph : ContextId → Phase) : Prop where
  placed : Placed q s ph none
  requests : s.Requests q ph

/-- In states 10 and 12 a completion is being counted; in the others there is no
I/O. -/
def InsertRun (b : CallBackContext) (c : InsertContext K V) : Phase → Prop
  | .io n =>
      if b.currentState = .s10 ∨ b.currentState = .s12 then
        b.nextState = some b.currentState
          ∧ c.writeBackCompletionCount + n + 1 = c.writeBackCompletionTarget
      else n = 0
  | _ => False

/-- Inside `run`, for the context `c`. -/
structure Running (q : Nat) (s : State K V) (ph : ContextId → Phase) (c : ContextId) : Prop where
  placed : Placed q s ph (some c)
  requests : s.Requests q ph
  state : match c with
    | .search _ => ph c = .io 0
    | .insert i => InsertRun (s.contexts c) (s.inserts i) (ph c)
  read : ∀ i, c = .search i → ∀ t ∈ s.held c, t.type = .read

/-- A `case` keeps the books; where it fails, nothing is said. -/
def Outcome.Keeps (q : Nat) (c : ContextId) : Outcome K V → Prop
  | .again s => ∃ ph, Running q s ph c
  | .stop s => ∃ ph, Books q s ph
  | .fault _ => True

theorem Outcome.Keeps.again (h : ∃ ph, Running q s ph c) : (Outcome.again s).Keeps q c := h

theorem Outcome.Keeps.stop (h : ∃ ph, Books q s ph) : (Outcome.stop s).Keeps q c := h

@[simp] theorem State.submitIo_contexts (deferred : Bool) (s : State K V) (io : PendingIo K V) :
    (s.submitIo deferred io).contexts = s.contexts := by
  cases deferred with
  | true => rfl
  | false =>
      simp only [State.submitIo, State.apply]
      cases io.type with
      | readIo => cases io.context <;> rfl
      | writeIo => rfl

@[simp] theorem State.asynchWrite_contexts (deferred : Bool) (s : State K V) (c : ContextId)
    (x : BlkAddress) (b : Block K V) : (s.asynchWrite deferred c x b).contexts = s.contexts :=
  s.submitIo_contexts deferred _

@[simp] theorem State.asynchWrite_inserts (deferred : Bool) (s : State K V) (c : ContextId)
    (x : BlkAddress) (b : Block K V) : (s.asynchWrite deferred c x b).inserts = s.inserts := by
  cases deferred <;> rfl

/-- A context in a state that counts no completion has no I/O. -/
theorem Running.io_zero (h : Running q s ph (.insert i))
    (hst : (s.contexts (.insert i)).currentState ≠ .s10
      ∧ (s.contexts (.insert i)).currentState ≠ .s12) : ph (.insert i) = .io 0 := by
  have hs := h.state
  simp only [InsertRun] at hs
  split at hs
  · next n hn =>
      rw [if_neg (by simp [hst])] at hs
      rw [hn, hs]
  · exact hs.elim

/-- `run` is called again, in a state that counts no completion. -/
theorem Running.again {st : CtxState} (hp : Placed q s ph (some (.insert i)))
    (hr : s.Requests q ph) (hph : ph (.insert i) = .io 0) (hst : st ≠ .s10 ∧ st ≠ .s12) :
    Running q (s.enter (.insert i) st) ph (.insert i) := by
  refine ⟨hp.enter st, hr.same (.setContext _ _ _) (fun _ => Iff.rfl), ?_, nofun⟩
  simp [InsertRun, hph, State.enter, State.setContext, hst]

/-- The data of the context is set, and `run` called again. -/
theorem Running.setAgain {x : InsertContext K V} {st : CtxState} (h : Running q s ph (.insert i))
    (hph : ph (.insert i) = .io 0) (hx : x.request = (s.inserts i).request)
    (hst : st ≠ .s10 ∧ st ≠ .s12) :
    Running q ((s.setInsert i x).enter (.insert i) st) ph (.insert i) :=
  Running.again (h.placed.setInsert x) (h.requests.same (.setInsert s hx) (fun _ => Iff.rfl)) hph
    hst

@[simp] theorem State.submitIo_blkReadyContexts (deferred : Bool) (s : State K V)
    (io : PendingIo K V) : (s.submitIo deferred io).blkReadyContexts = s.blkReadyContexts := by
  cases deferred with
  | true => rfl
  | false =>
      simp only [State.submitIo, State.apply]
      cases io.type with
      | readIo => cases io.context <;> rfl
      | writeIo => rfl

/-- Tokens are given back and `run` is called again. -/
theorem Running.releaseAgain {x : InsertContext K V} {n : Nat} {st : CtxState}
    (h : Running q s ph (.insert i)) (hph : ph (.insert i) = .io 0)
    (hx : x.request = (s.inserts i).request) (hst : st ≠ .s10 ∧ st ≠ .s12) :
    ∃ ph', Released q (s.setInsert i x) ((s.setInsert i x).releaseAllBut (.insert i) n) ph
        (.insert i) ((s.held (.insert i)).take n) ph'
      ∧ Running q (((s.setInsert i x).releaseAllBut (.insert i) n).enter (.insert i) st) ph'
        (.insert i) := by
  obtain ⟨ph', hr⟩ := (h.placed.setInsert x).releaseAllBut n hph
  refine ⟨ph', hr, Running.again hr.placed ?_ (hr.phase.trans hph) hst⟩
  exact h.requests.same ((State.SameRequests.setInsert s hx).trans (.of_barriers hr.frame)) hr.free

theorem Outcome.Keeps.release {x : InsertContext K V} {n : Nat} {st : CtxState}
    (h : Running q s ph (.insert i)) (hph : ph (.insert i) = .io 0)
    (hx : x.request = (s.inserts i).request) (hst : st ≠ .s10 ∧ st ≠ .s12) :
    (Outcome.again (((s.setInsert i x).releaseAllBut (.insert i) n).enter (.insert i) st)).Keeps q
      (.insert i) := by
  obtain ⟨ph', _, hrun⟩ := h.releaseAgain hph hx hst
  exact ⟨ph', hrun⟩

/-- The context submits its last write and waits. -/
theorem Books.write {deferred : Bool} {n : Nat} {x : BlkAddress} {b : Block K V}
    (hp : Placed q s ph (some (.insert i)))
    (hr : s.Requests q ph) (hph : ph (.insert i) = .io n)
    (hblk : .insert i ∉ s.blkReadyContexts)
    (hnext : ((s.contexts (.insert i)).nextState = some .s10
        ∨ (s.contexts (.insert i)).nextState = some .s12)
          ∧ (s.inserts i).writeBackCompletionCount + (n + 1)
            = (s.inserts i).writeBackCompletionTarget
      ∨ (s.contexts (.insert i)).nextState = some .s11 ∧ n = 0) :
    Books q (s.asynchWrite deferred (.insert i) x b)
      (Function.update ph (.insert i) (.io (n + 1))) := by
  have hp1 := hp.submitIo deferred hph ⟨.insert i, .writeIo, x, some b, false⟩ rfl
  refine ⟨hp1.park ⟨?_, fun hm => ?_, nofun⟩, hr.same (.submitIo _ _ _)
    (free_update (by simp [hph]) (by simp))⟩
  · change InsertCtl ((s.asynchWrite deferred (.insert i) x b).contexts (.insert i))
      ((s.asynchWrite deferred (.insert i) x b).inserts i) _
    rw [State.asynchWrite_contexts, State.asynchWrite_inserts, Function.update_self]
    rcases hnext with ⟨h, hsum⟩ | ⟨h, hn⟩
    · exact .inr (.inl ⟨h, by omega, hsum⟩)
    · exact .inr (.inr ⟨h, by omega⟩)
  · rw [State.submitIo_blkReadyContexts] at hm
    exact absurd hm hblk

/-- The context submits both of its writes and waits. -/
theorem Books.writes {deferred : Bool} {x y : BlkAddress} {b d : Block K V}
    (hp : Placed q s ph (some (.insert i)))
    (hr : s.Requests q ph) (hph : ph (.insert i) = .io 0)
    (hnext : (s.contexts (.insert i)).nextState = some .s10
      ∨ (s.contexts (.insert i)).nextState = some .s12)
    (hcount : (s.inserts i).writeBackCompletionCount = 0)
    (htarget : (s.inserts i).writeBackCompletionTarget = 2) :
    Books q ((s.asynchWrite deferred (.insert i) x b).asynchWrite deferred (.insert i) y d)
      (Function.update ph (.insert i) (.io 2)) := by
  have hp1 := hp.submitIo deferred hph ⟨.insert i, .writeIo, x, some b, false⟩ rfl
  have hph1 : Function.update ph (.insert i) (.io 2)
      = Function.update (Function.update ph (.insert i) (.io 1)) (.insert i) (.io 2) := by simp
  rw [hph1]
  refine Books.write hp1 (hr.same (.submitIo _ _ _)
    (free_update (by simp [hph]) (by simp))) (n := 1) (by simp) ?_ (.inl ⟨?_, ?_⟩)
  · rw [State.asynchWrite, State.submitIo_blkReadyContexts]
    exact hp.lists.not_ready (by simp [hph, Phase.ios])
  · rw [State.asynchWrite_contexts]
    exact hnext
  · rw [State.asynchWrite_inserts]
    omega

/-- The data of the context is set, the next state too, and one write submitted. -/
theorem Books.setWrite {deferred : Bool} {x : InsertContext K V} {st : CtxState}
    {a : BlkAddress} {b : Block K V} (hp : Placed q s ph (some (.insert i)))
    (hr : s.Requests q ph) (hph : ph (.insert i) = .io 0)
    (hx : x.request = (s.inserts i).request)
    (hst : st = .s10 ∧ x.writeBackCompletionCount + 1 = x.writeBackCompletionTarget ∨ st = .s11) :
    Books q (((s.setInsert i x).setNextState (.insert i) st).asynchWrite deferred
      (.insert i) a b) (Function.update ph (.insert i) (.io 1)) := by
  refine Books.write ((hp.setInsert x).setNextState st)
    (hr.same ((State.SameRequests.setInsert s hx).trans (.setContext _ _ _)) (fun _ => Iff.rfl))
    hph (hp.lists.not_ready (by simp [hph, Phase.ios])) ?_
  simp only [State.setNextState, State.setContext, State.setInsert, Function.update_self]
  rcases hst with ⟨rfl, hsum⟩ | rfl
  · exact .inl ⟨.inl rfl, hsum⟩
  · exact .inr ⟨rfl, trivial⟩

/-- The same with two writes. -/
theorem Books.setWrites {deferred : Bool} {x : InsertContext K V} {st : CtxState}
    {a a' : BlkAddress} {b b' : Block K V} (hp : Placed q s ph (some (.insert i)))
    (hr : s.Requests q ph) (hph : ph (.insert i) = .io 0)
    (hx : x.request = (s.inserts i).request) (hst : st = .s10 ∨ st = .s12)
    (hcount : x.writeBackCompletionCount = 0) (htarget : x.writeBackCompletionTarget = 2) :
    Books q ((((s.setInsert i x).setNextState (.insert i) st).asynchWrite deferred
      (.insert i) a b).asynchWrite deferred (.insert i) a' b')
      (Function.update ph (.insert i) (.io 2)) := by
  refine Books.writes ((hp.setInsert x).setNextState st)
    (hr.same ((State.SameRequests.setInsert s hx).trans (.setContext _ _ _)) (fun _ => Iff.rfl))
    hph ?_ ?_ ?_
  · simp only [State.setNextState, State.setContext, State.setInsert, Function.update_self]
    rcases hst with rfl | rfl
    · exact .inl rfl
    · exact .inr rfl
  · simpa [State.setNextState, State.setContext, State.setInsert] using hcount
  · simpa [State.setNextState, State.setContext, State.setInsert] using htarget

/-! ## §2. `insert_context`. -/

section Insert

variable (capacity : Nat) (deferred : Bool)

/-- The barrier is granted, and `run` called again. -/
theorem Running.grant {x : BlkAddress} {type : BarrierType} {st : CtxState}
    (h : Running q s ph c) (hph : ph c = .io 0) (hst : st ≠ .s10 ∧ st ≠ .s12)
    (htype : ∀ j, c = .search j → type = .read)
    (hg : ((s.setNextState c st).barriers x).grants type = true) :
    Running q ((((s.setNextState c st).setBarrier x (((s.setNextState c st).barriers x).add
      type)).addToken c ⟨x, type⟩).transition c) ph c := by
  have hp := h.placed.setNextState st
  have hbound := hp.lists.bound c (by simp [hph])
  refine ⟨(hp.grant hbound hg).transition, ?_, ?_, ?_⟩
  · exact h.requests.same ((((State.SameRequests.setContext s _ _).trans (.setBarrier _ _ _)).trans
      (.setContext _ _ _)).trans (.setContext _ _ _)) (fun _ => Iff.rfl)
  · cases c with
    | search j => exact hph
    | insert j =>
        simp [InsertRun, hph, State.transition, State.addToken, State.setNextState,
          State.setContext, State.setBarrier, hst]
  · intro j hj t ht
    simp only [State.held, State.transition, State.addToken, State.setNextState,
      State.setContext, State.setBarrier, Function.update_self, List.mem_cons] at ht
    rcases ht with rfl | ht
    · exact htype j hj
    · exact h.read j hj t ht

/-- The request for a barrier is queued, and the context waits. -/
theorem Books.enqueue {x : BlkAddress} (type : BarrierType) {st : CtxState}
    (h : Running q s ph c) (hph : ph c = .io 0)
    (hctl : match c with
      | .search j => (s.contexts c).currentState = .s0 ∧ st = .s1 ∧ (s.searches j).nodeRef = x
          ∧ type = .read
      | .insert j => (s.contexts c).currentState = .s0 ∧ st = .s10001
          ∧ (s.inserts j).nodeRef = some x) :
    Books q ((s.setNextState c st).setBarrier x (((s.setNextState c st).barriers x).push c type))
      (Function.update ph c (.queued x type)) := by
  have hp := h.placed.setNextState st
  refine ⟨(hp.enqueue hph).park ⟨?_, ?_, ?_⟩,
    h.requests.same ((State.SameRequests.setContext s _ _).trans (.setBarrier _ _ _))
      (free_update (by simp [hph]) (by simp))⟩
  · cases c with
    | search j =>
        obtain ⟨h0, rfl, hnode, rfl⟩ := hctl
        simp [SearchCtl, State.setBarrier, State.setNextState, State.setContext, h0, hnode]
    | insert j =>
        obtain ⟨h0, rfl, hnode⟩ := hctl
        simp [InsertCtl, State.setBarrier, State.setNextState, State.setContext, h0, hnode]
  · intro hm
    exact absurd hm (h.placed.lists.not_ready (by simp [hph, Phase.ios]))
  · intro j hj t ht
    simp only [State.setBarrier, State.setNextState, State.setContext,
      Function.update_self] at ht
    exact h.read j hj t ht

/-- The data of the context that runs is set. -/
theorem Running.setInsert {x : InsertContext K V} (h : Running q s ph (.insert i))
    (hph : ph (.insert i) = .io 0) (hst : (s.contexts (.insert i)).currentState ≠ .s10
      ∧ (s.contexts (.insert i)).currentState ≠ .s12)
    (hx : x.request = (s.inserts i).request) :
    Running q (s.setInsert i x) ph (.insert i) := by
  refine ⟨h.placed.setInsert x, h.requests.same (.setInsert s hx) (fun _ => Iff.rfl), ?_, nofun⟩
  simp [InsertRun, hph, State.setInsert, hst]

/-- What state 0 takes the context to be: at the root, if it is nowhere yet. -/
def atRoot (s : State K V) (i : Nat) : InsertContext K V :=
  if (s.inserts i).nodeRef = none then
    { s.inserts i with
      lastState1 := false
      referToRoot := true
      nodeRef := some s.root
      currentNodeLevel := s.depth }
  else { s.inserts i with lastState1 := false }

theorem atRoot_request (s : State K V) (i : Nat) :
    (atRoot s i).request = (s.inserts i).request := by
  unfold atRoot
  split <;> rfl

/-- The type of barrier that state 0 requests. -/
def InsertContext.access (x : InsertContext K V) : BarrierType :=
  if x.optimistic && !x.nextVisitIsLeafNode then .read else .write

/-- What follows a request: a context whose request was granted goes on. -/
def afterRequest (c : ContextId) : State K V × Bool → Outcome K V
  | (s, true) => .again (s.transition c)
  | (s, false) => .stop s

/-- State 0: the barrier of the node is granted, or waited for. -/
theorem insertState0_eq (s : State K V) (i : Nat) {s₀ : State K V}
    (hs₀ : (s.setInsert i (atRoot s i)).setNextState (.insert i) .s10001 = s₀) :
    ∃ node, (atRoot s i).nodeRef = some node ∧ insertState0 s i =
      if (s₀.barriers node).grants (atRoot s i).access = true then
        .again (((s₀.setBarrier node ((s₀.barriers node).add (atRoot s i).access)).addToken
          (.insert i) ⟨node, (atRoot s i).access⟩).transition (.insert i))
      else .stop (s₀.setBarrier node ((s₀.barriers node).push (.insert i)
        (atRoot s i).access)) := by
  have hnode : ∃ node, (atRoot s i).nodeRef = some node := by
    unfold atRoot
    split
    · exact ⟨_, rfl⟩
    · next hne => exact Option.ne_none_iff_exists'.1 hne
  obtain ⟨node, hnode⟩ := hnode
  refine ⟨node, hnode, ?_⟩
  have heq : insertState0 s i = afterRequest (.insert i) (s₀.requestBarrier (.insert i)
      ((atRoot s i).nodeRef.getD s.root) (atRoot s i).access) := by
    rw [← hs₀]
    rfl
  rw [heq, hnode, Option.getD_some, State.requestBarrier]
  by_cases hg : (s₀.barriers node).grants (atRoot s i).access = true
  · rw [if_pos hg, if_pos hg]
    rfl
  · rw [if_neg hg, if_neg hg]
    rfl

theorem insertState0_keeps (h : Running q s ph (.insert i))
    (hst : (s.contexts (.insert i)).currentState = .s0) :
    (insertState0 s i).Keeps q (.insert i) := by
  have hph := h.io_zero (by simp [hst])
  obtain ⟨node, hnode, heq⟩ := insertState0_eq s i rfl
  have hset := h.setInsert hph (by simp [hst]) (atRoot_request s i)
  rw [heq]
  split
  · next hg => exact .again ⟨ph, hset.grant hph (by simp) nofun hg⟩
  · refine .stop ⟨_, Books.enqueue _ hset hph ⟨hst, rfl, ?_⟩⟩
    simpa [State.setInsert] using hnode

theorem insertState10001_keeps (h : Running q s ph (.insert i))
    (hst : (s.contexts (.insert i)).currentState = .s10001) :
    (insertState10001 s i).Keeps q (.insert i) := by
  have hph := h.io_zero (by simp [hst])
  simp only [insertState10001]
  split
  · trivial
  · split
    · exact .release h hph rfl (by simp)
    · split
      · exact .release h hph rfl (by simp)
      · split
        · split
          · trivial
          · exact .release h hph rfl (by simp)
        · exact .again ⟨ph, h.setAgain hph rfl (by simp)⟩

/-- The context reads its node and waits. -/
theorem Books.setRead {x : InsertContext K V} {node : BlkAddress} (h : Running q s ph (.insert i))
    (hph : ph (.insert i) = .io 0) (hx : x.request = (s.inserts i).request) :
    Books q (((s.setInsert i x).setNextState (.insert i) .s2).asynchRead deferred (.insert i) node)
      (Function.update ph (.insert i) (.io 1)) := by
  have hp := (h.placed.setInsert x).setNextState .s2
  refine ⟨(hp.submitIo deferred hph ⟨.insert i, .readIo, node, none, false⟩ rfl).park
    ⟨?_, ?_, nofun⟩, ?_⟩
  · simp [InsertCtl, State.setNextState, State.setContext]
  · rw [State.submitIo_blkReadyContexts]
    intro hm
    exact absurd hm (h.placed.lists.not_ready (by simp [hph, Phase.ios]))
  · exact h.requests.same (((State.SameRequests.setInsert s hx).trans
      (.setContext _ _ _)).trans (.submitIo _ _ _)) (free_update (by simp [hph]) (by simp))

theorem insertState1_keeps (h : Running q s ph (.insert i))
    (hst : (s.contexts (.insert i)).currentState = .s1) :
    (insertState1 deferred s i).Keeps q (.insert i) := by
  have hph := h.io_zero (by simp [hst])
  simp only [insertState1]
  split
  · trivial
  · split
    · trivial
    · exact .stop ⟨_, Books.setRead deferred h hph rfl⟩

/-- The block store, the allocator and the root are no part of the books. -/
theorem Placed.store {run : Option ContextId} (h : Placed q s ph run)
    (blocks : BlkAddress → Option (Block K V)) (allocator : Allocator) (root : BlkAddress)
    (rootInstance : Option (InnerNode K)) (depth : Nat) :
    Placed q { s with
      blocks := blocks
      allocator := allocator
      root := root
      rootInstance := rootInstance
      depth := depth } ph run :=
  ⟨h.lists, h.tokens, fun d hd => (h.ctl d hd).congr ⟨rfl, by cases d <;> rfl⟩ rfl id⟩

theorem Placed.allocate {run : Option ContextId} (h : Placed q s ph run) :
    Placed q s.allocate ph run :=
  h.store s.blocks s.allocator.allocate s.root s.rootInstance s.depth

theorem State.Requests.allocate (h : s.Requests q ph) : s.allocate.Requests q ph :=
  h.same (.of_eq rfl rfl rfl rfl rfl rfl rfl rfl) (fun _ => Iff.rfl)

theorem insertLeaf_keeps [LinearOrder K] {c : InsertContext K V} {leaf : LeafNode K V}
    (h : Running q s ph (.insert i)) (hph : ph (.insert i) = .io 0)
    (hc : c.request = (s.inserts i).request) :
    (insertLeaf capacity deferred s i c leaf).Keeps q (.insert i) := by
  rw [insertLeaf.eq_def]
  split
  · split
    · exact .again ⟨ph, h.setAgain hph hc (by simp)⟩
    · split
      · exact .stop ⟨_, Books.setWrite h.placed h.requests hph hc (.inl ⟨rfl, rfl⟩)⟩
      · refine .stop ⟨_, Books.setWrites h.placed.allocate h.requests.allocate hph hc ?_ rfl rfl⟩
        split
        · simp
        · simp
  · trivial

theorem insertInner_keeps [LinearOrder K] {c : InsertContext K V} {inner_node : InnerNode K}
    (h : Running q s ph (.insert i)) (hph : ph (.insert i) = .io 0)
    (hc : c.request = (s.inserts i).request) :
    (insertInner capacity s i c inner_node).Keeps q (.insert i) := by
  rw [insertInner.eq_def]
  split
  · trivial
  · dsimp only
    split
    · exact .again ⟨ph, h.setAgain hph hc (by simp)⟩
    · split
      · trivial
      · exact .again ⟨ph, h.setAgain hph hc (by simp)⟩

theorem insertState2_keeps [LinearOrder K] (h : Running q s ph (.insert i))
    (hst : (s.contexts (.insert i)).currentState = .s2) :
    (insertState2 capacity deferred s i).Keeps q (.insert i) := by
  have hph := h.io_zero (by simp [hst])
  simp only [insertState2]
  split
  · trivial
  · split
    · trivial
    · split
      · trivial
      · split
        · trivial
        · exact insertLeaf_keeps capacity deferred h hph rfl
  · exact insertInner_keeps capacity h hph rfl

theorem insertAddSplit_keeps [LinearOrder K] {c : InsertContext K V} {p : ParentNodeContext K}
    {parents : List (ParentNodeContext K)} (h : Running q s ph (.insert i))
    (hph : ph (.insert i) = .io 0) (hc : c.request = (s.inserts i).request) :
    (insertAddSplit capacity deferred s i c p parents).Keeps q (.insert i) := by
  rw [insertAddSplit.eq_def]
  split
  · trivial
  · dsimp only
    split
    · exact .stop ⟨_, Books.setWrite h.placed h.requests hph hc (.inl ⟨rfl, rfl⟩)⟩
    · split
      · trivial
      · refine .stop ⟨_, Books.setWrites h.placed.allocate h.requests.allocate hph hc ?_ rfl rfl⟩
        split
        · simp
        · simp

/-- The loop of state 9 stops at the first modified parent. -/
theorem insertFlush_keeps {c : InsertContext K V} {parents : List (ParentNodeContext K)}
    (h : Running q s ph (.insert i)) (hph : ph (.insert i) = .io 0)
    (hc : c.request = (s.inserts i).request) :
    (insertFlush deferred s i c parents).Keeps q (.insert i) := by
  induction parents with
  | nil =>
      exact .again ⟨ph, h.setAgain hph hc (by simp)⟩
  | cons p parents ih =>
      rw [insertFlush]
      split
      · exact .stop ⟨_, Books.setWrite h.placed h.requests hph hc (.inl ⟨rfl, rfl⟩)⟩
      · exact ih

theorem insertState9_keeps [LinearOrder K] (h : Running q s ph (.insert i))
    (hst : (s.contexts (.insert i)).currentState = .s9) :
    (insertState9 capacity deferred s i).Keeps q (.insert i) := by
  have hph := h.io_zero (by simp [hst])
  simp only [insertState9]
  split
  · split
    · trivial
    · exact insertAddSplit_keeps capacity deferred h hph rfl
  · exact insertFlush_keeps deferred h hph rfl

theorem insertState13_keeps (h : Running q s ph (.insert i))
    (hst : (s.contexts (.insert i)).currentState = .s13) :
    (insertState13 s i).Keeps q (.insert i) := by
  exact .release h (h.io_zero (by simp [hst])) rfl (by simp)

/-- In states 10 and 12, one of the completions waited for is counted. -/
theorem Running.counting (h : Running q s ph (.insert i))
    (hst : (s.contexts (.insert i)).currentState = .s10
      ∨ (s.contexts (.insert i)).currentState = .s12) :
    ∃ n, ph (.insert i) = .io n
      ∧ (s.contexts (.insert i)).nextState = some (s.contexts (.insert i)).currentState
      ∧ (s.inserts i).writeBackCompletionCount + n + 1
        = (s.inserts i).writeBackCompletionTarget := by
  have hs := h.state
  simp only [InsertRun] at hs
  split at hs
  · next n hn =>
      rw [if_pos hst] at hs
      exact ⟨n, hn, hs⟩
  · exact hs.elim

/-- Completions are missing, and the context waits on. -/
theorem Running.wait {x : InsertContext K V} (h : Running q s ph (.insert i))
    (hst : (s.contexts (.insert i)).currentState = .s10
      ∨ (s.contexts (.insert i)).currentState = .s12)
    (hx : x.request = (s.inserts i).request)
    (hcount : x.writeBackCompletionCount = (s.inserts i).writeBackCompletionCount + 1)
    (htarget : x.writeBackCompletionTarget = (s.inserts i).writeBackCompletionTarget)
    (hne : x.writeBackCompletionCount ≠ x.writeBackCompletionTarget) :
    Books q (s.setInsert i x) ph := by
  obtain ⟨n, hph, hnext, hsum⟩ := h.counting hst
  refine ⟨(h.placed.setInsert x).park ⟨?_, fun _ => hnext, nofun⟩,
    h.requests.same (.setInsert s hx) (fun _ => Iff.rfl)⟩
  simp only [InsertCtl, hph, State.setInsert, Function.update_self]
  refine .inr (.inl ⟨?_, by omega, by omega⟩)
  rw [hnext]
  simpa using hst

theorem insertState10_keeps (h : Running q s ph (.insert i))
    (hst : (s.contexts (.insert i)).currentState = .s10) :
    (insertState10 s i).Keeps q (.insert i) := by
  simp only [insertState10]
  split
  · next hlast =>
      obtain ⟨n, hph, _, hsum⟩ := h.counting (.inl hst)
      have hn : n = 0 := by omega
      subst hn
      exact .again ⟨ph, Running.again (h.placed.setInsert _)
        (h.requests.same (.setInsert s rfl) (fun _ => Iff.rfl)) hph (by simp)⟩
  · next hmore => exact .stop ⟨ph, h.wait (.inl hst) rfl rfl rfl hmore⟩

theorem insertNewRoot_keeps {c : InsertContext K V} {split : Split K V} {kl kr : K}
    (h : Running q s ph (.insert i)) (hph : ph (.insert i) = .io 0)
    (hc : c.request = (s.inserts i).request) :
    (insertNewRoot deferred s i c split kl kr).Keeps q (.insert i) := by
  exact .stop ⟨_, Books.setWrite (h.placed.store _ _ _ _ _)
    (h.requests.same (.of_eq rfl rfl rfl rfl rfl rfl rfl rfl) (fun _ => Iff.rfl)) hph hc
    (.inr rfl)⟩

theorem insertState12_keeps (h : Running q s ph (.insert i))
    (hst : (s.contexts (.insert i)).currentState = .s12) :
    (insertState12 deferred s i).Keeps q (.insert i) := by
  simp only [insertState12]
  split
  · next hlast =>
      obtain ⟨n, hph, _, hsum⟩ := h.counting (.inr hst)
      have hn : n = 0 := by omega
      subst hn
      split
      · trivial
      · split
        · exact insertNewRoot_keeps deferred h hph rfl
        · trivial
  · next hmore => exact .stop ⟨ph, h.wait (.inr hst) rfl rfl rfl hmore⟩

/-- The context has given back its tokens and returns to its stack. -/
theorem Books.finishInsert {x : InsertContext K V} {r : InsertRequest K V}
    (h : Running q s ph (.insert i)) (hph : ph (.insert i) = .io 0)
    (hr : (s.inserts i).request = some r) :
    ∃ ph', Released q (s.setInsert i x) ((s.setInsert i x).releaseAllBut (.insert i) 0) ph
        (.insert i) [] ph'
      ∧ Books q { ((s.setInsert i x).releaseAllBut (.insert i) 0).graduate r.id r.cbF r.semaphore
          (.finishInsert r.id) with
        freeInsertContexts := i :: ((s.setInsert i x).releaseAllBut
          (.insert i) 0).freeInsertContexts } (Function.update ph' (.insert i) .free) := by
  obtain ⟨ph', hrel⟩ := (h.placed.setInsert x).releaseAllBut 0 hph
  have hsame := State.SameRequests.of_barriers hrel.frame
  have hph' := hrel.phase.trans hph
  refine ⟨ph', hrel, Placed.freeInsert (hrel.placed.client _ _ _ _ _ _ _) hph' ?_, ?_⟩
  · exact congrArg CallBackContext.obtainedBarriers hrel.self
  · refine (hsame.books h.requests).finish (c := .insert i) (r := .insert r) (.inr rfl)
      (h.placed.lists.bound _ (by simp [hph])) (by simp [hph]) (by simp [State.request, hr])
      (Function.update_self ..) (fun d hd => ⟨?_, ?_⟩)
    · rw [Function.update_of_ne hd]
      exact hrel.free d
    · refine (congrFun hsame.request d).trans ?_
      cases d with
      | search j => rfl
      | insert j =>
          have hj : j ≠ i := fun hj => hd (by rw [hj])
          simp [State.request, State.setInsert, hj]

theorem insertState11_keeps (h : Running q s ph (.insert i))
    (hst : (s.contexts (.insert i)).currentState = .s11) :
    (insertState11 s i).Keeps q (.insert i) := by
  have hph := h.io_zero (by simp [hst])
  simp only [insertState11]
  split
  · trivial
  · next r hr =>
      obtain ⟨ph', _, hbooks⟩ := Books.finishInsert h hph hr
      exact .stop ⟨_, hbooks⟩

/-- **Every `case` of `insert_context::run` keeps the books.** -/
theorem insertCase_keeps [LinearOrder K] (h : Running q s ph (.insert i)) :
    (insertCase capacity deferred s i).Keeps q (.insert i) := by
  rw [insertCase]
  split
  · next hst => exact insertState0_keeps h hst
  · next hst => exact insertState10001_keeps h hst
  · next hst => exact insertState1_keeps deferred h hst
  · next hst => exact insertState2_keeps capacity deferred h hst
  · next hst => exact insertState9_keeps capacity deferred h hst
  · next hst => exact insertState10_keeps h hst
  · next hst => exact insertState11_keeps h hst
  · next hst => exact insertState12_keeps deferred h hst
  · next hst => exact insertState13_keeps h hst

end Insert

/-! ## §3. `search_context`. -/

section Search

variable (deferred : Bool)

theorem searchState0_keeps (h : Running q s ph (.search i))
    (hst : (s.contexts (.search i)).currentState = .s0) :
    (searchState0 s i).Keeps q (.search i) := by
  have hph : ph (.search i) = .io 0 := h.state
  simp only [searchState0, State.requestBarrier]
  by_cases hg : (((s.setNextState (.search i) .s1).barriers
      ((s.setNextState (.search i) .s1).searches i).nodeRef)).grants .read = true
  · rw [if_pos hg]
    exact .again ⟨ph, h.grant hph (by simp) (fun _ _ => rfl) hg⟩
  · rw [if_neg hg]
    exact .stop ⟨_, Books.enqueue _ h hph ⟨hst, rfl, rfl, rfl⟩⟩

/-- The search reads its node and waits. -/
theorem Books.read {x : BlkAddress} (hp : Placed q s ph (some (.search i)))
    (hr : s.Requests q ph) (hph : ph (.search i) = .io 0)
    (hread : ∀ t ∈ s.held (.search i), t.type = .read) :
    Books q ((s.setNextState (.search i) .s2).asynchRead deferred (.search i) x)
      (Function.update ph (.search i) (.io 1)) := by
  have hp1 := (hp.setNextState .s2).submitIo deferred hph
    ⟨.search i, .readIo, x, none, false⟩ rfl
  refine ⟨hp1.park ⟨?_, ?_, ?_⟩, hr.same ((State.SameRequests.setContext _ _ _).trans
    (.submitIo _ _ _)) (free_update (by simp [hph]) (by simp))⟩
  · simp [SearchCtl, State.setNextState, State.setContext]
  · rw [State.submitIo_blkReadyContexts]
    intro hm
    exact absurd hm (hp.lists.not_ready (by simp [hph, Phase.ios]))
  · intro j _ t ht
    simp only [State.submitIo_contexts, State.setNextState, State.setContext,
      Function.update_self] at ht
    exact hread t ht

theorem searchState1_keeps (h : Running q s ph (.search i)) :
    (searchState1 deferred s i).Keeps q (.search i) := by
  have hph : ph (.search i) = .io 0 := h.state
  have hread := h.read i rfl
  simp only [searchState1]
  split
  · trivial
  · split
    · obtain ⟨ph', hrel⟩ := h.placed.releaseFront hph hread
      refine .stop ⟨_, Books.read deferred hrel.placed
        (h.requests.same (.of_barriers hrel.frame) hrel.free) (hrel.phase.trans hph) ?_⟩
      intro t ht
      rw [State.held, hrel.self] at ht
      exact hread t (List.mem_of_mem_dropLast ht)
    · exact .stop ⟨_, Books.read deferred h.placed h.requests hph hread⟩

/-- The search has given back its tokens and returns to its stack. -/
theorem Books.finishSearch {x : SearchContext K V} {r : SearchRequest K} (found : Option V)
    {s' : State K V} (h : Running q s ph (.search i)) (hr : (s.searches i).request = some r)
    (hs' : (s.setSearch i x).graduate r.id r.cbF r.semaphore (.finishSearch r.id found) = s') :
    ∃ ph', Released q s' (State.releaseFronts (.search i)
          (s'.contexts (.search i)).obtainedBarriers.length s') ph (.search i) [] ph'
      ∧ Books q { State.releaseFronts (.search i)
          (s'.contexts (.search i)).obtainedBarriers.length s' with
        freeSearchContexts := i :: (State.releaseFronts (.search i)
          (s'.contexts (.search i)).obtainedBarriers.length s').freeSearchContexts }
        (Function.update ph' (.search i) .free) := by
  have hph : ph (.search i) = .io 0 := h.state
  have hread := h.read i rfl
  have hp : Placed q s' ph (some (.search i)) := by
    rw [← hs']
    exact (h.placed.setSearch x).client _ _ _ _ _ _ _
  have hheld : s'.held (.search i) = s.held (.search i) := by
    rw [← hs']
    rfl
  obtain ⟨ph', hrel⟩ := hp.releaseFronts (s'.held (.search i)).length hph
    (by rw [hheld]; exact hread) le_rfl
  have hsame := State.SameRequests.of_barriers hrel.frame
  refine ⟨ph', hrel, hrel.placed.freeSearch (hrel.phase.trans hph) ?_, hsame.books ?_⟩
  · exact congrArg CallBackContext.obtainedBarriers hrel.self
  · rw [← hs'] at hsame ⊢
    refine h.requests.finish (c := .search i) (r := .search r) (.inl ⟨found, rfl⟩)
      (h.placed.lists.bound _ (by simp [hph])) (by simp [hph]) (by simp [State.request, hr])
      (Function.update_self ..) (fun d hd => ⟨?_, ?_⟩)
    · rw [Function.update_of_ne hd]
      exact hrel.free d
    · refine (congrFun hsame.request d).trans ?_
      cases d with
      | search j =>
          have hj : j ≠ i := fun hj => hd (by rw [hj])
          simp [State.request, State.graduate, State.addLog, State.setSearch, hj]
      | insert j => rfl

theorem searchFinish_keeps {r : SearchRequest K} {found : Option V}
    (h : Running q s ph (.search i)) (hr : (s.searches i).request = some r) :
    (searchFinish s i r found).Keeps q (.search i) := by
  -- the client is told before the tokens are given back
  obtain ⟨ph', _, hbooks⟩ := Books.finishSearch found h hr rfl
  exact .stop ⟨_, hbooks⟩

/-- The search goes on with a child. -/
theorem Running.toChild (h : Running q s ph (.search i)) (child : BlkAddress) :
    Running q ((s.setSearch i { s.searches i with nodeRef := child }).enter (.search i) .s0) ph
      (.search i) := by
  have hsame := State.SameRequests.setSearch s (x := { s.searches i with nodeRef := child }) rfl
  refine ⟨(h.placed.setSearch _).enter .s0, h.requests.same (hsame.trans (.setContext _ _ _))
    (fun _ => Iff.rfl), h.state, fun j hj t ht => ?_⟩
  rw [State.held_enter] at ht
  exact h.read j hj t ht

theorem searchState2_keeps [LinearOrder K] (h : Running q s ph (.search i)) :
    (searchState2 s i).Keeps q (.search i) := by
  simp only [searchState2]
  split
  · trivial
  · next r hr =>
      split
      · trivial
      · exact searchFinish_keeps h hr
      · split
        · exact searchFinish_keeps h hr
        · split
          · trivial
          · next child _ => exact .again ⟨ph, h.toChild child⟩

/-- **Every `case` of `search_context::run` keeps the books.** -/
theorem searchCase_keeps [LinearOrder K] (h : Running q s ph (.search i)) :
    (searchCase deferred s i).Keeps q (.search i) := by
  rw [searchCase.eq_def]
  split
  · next hst => exact searchState0_keeps h hst
  · exact searchState1_keeps deferred h
  · exact searchState2_keeps h
  · trivial

end Search

end PullBasedBPlusTree

end NvmTree
