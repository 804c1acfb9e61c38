/-
  NvmTree.Pull.Inherited — the operations a pull-based tree inherits.

  `get_iterator`, `range_search` and `toString` of `VanillaBPlusTree` go through the
  reference `root_`: `get` gives the instance it is bound to, if there is one, and
  `close` writes that instance back if it is marked modified.  State 12 of an insert
  binds `root_` to the root it creates, marked modified, and from then on the
  contexts change the root in the store only.  So the first of these calls writes
  back the root as it was created.

  Main results:
    * `inherited_same`   — nothing changes when the instance is what the store has.
    * `inherited_writes` — otherwise the root's block is overwritten with it.
    * `run_alike`        — the instance makes no difference to what the contexts do.
    * `run_inherited`    — the calls after any run.
-/
import NvmTree.OnDisk.Reads
import NvmTree.Pull.Serial

namespace NvmTree

open RangeTree

namespace PullBasedBPlusTree

variable {K V : Type*}

/-! ## §1. The code. -/

/-- A call of an inherited operation, and what it returns. -/
inductive Inherited (K : Type*) where
  | getIterator
  | rangeSearch (key_low key_high : K)
  | toString
  deriving Repr, DecidableEq

inductive InheritedAnswer (K : Type*) where
  | iterator (it : Iterator K)
  | text (ret : String)
  deriving Repr, DecidableEq

namespace State

/-- The store as the synchronous operations use it. -/
def disk (s : State K V) : Disk K V := ⟨s.blocks, s.allocator, []⟩

/-- `root_->get`. -/
def rootGet (s : State K V) : Option (Node K V) :=
  match s.rootInstance with
  | some instance_ => some (.inner instance_)
  | none => s.disk.get s.root

/-- `root_->close`, in the store `d`. -/
def rootClose (s : State K V) (d : Disk K V) (instance_ : Node K V) : State K V :=
  { s with blocks := (d.close s.root instance_).blocks, rootInstance := none }

variable [LinearOrder K]

def getIterator (s : State K V) : Option (State K V × Iterator K) :=
  match s.rootGet with
  | none => none
  | some root =>
      match s.disk.getLeftmostLeafNode s.depth root with
      | none => none
      | some (d, leftmost_leaf_node) => some (s.rootClose d root, ⟨leftmost_leaf_node, 0, none⟩)

/-- `none` is also a use of the unset `leaf_node_ref`. -/
def rangeSearch (s : State K V) (key_low key_high : K) : Option (State K V × Iterator K) :=
  match s.rootGet with
  | none => none
  | some root =>
      match s.disk.locateKey s.depth root key_low with
      | some (d, some (leaf_node_ref, offset)) =>
          some (s.rootClose d root, ⟨leaf_node_ref, offset, some key_high⟩)
      | _ => none

def toString [ToString K] [ToString V] (s : State K V) : Option (State K V × String) :=
  match s.rootGet with
  | none => none
  | some root =>
      match s.disk.toString s.depth root with
      | none => none
      | some (d, ret) => some (s.rootClose d root, ret)

/-- The call, as one of the three. -/
def inherited [ToString K] [ToString V] (s : State K V) :
    Inherited K → Option (State K V × InheritedAnswer K)
  | .getIterator => s.getIterator.map (fun r => (r.1, .iterator r.2))
  | .rangeSearch key_low key_high =>
      (s.rangeSearch key_low key_high).map (fun r => (r.1, .iterator r.2))
  | .toString => s.toString.map (fun r => (r.1, .text r.2))

end State

/-! ## §2. What a call leaves behind. -/

section Calls

variable [LinearOrder K] [ToString K] [ToString V] {s s' : State K V} {call : Inherited K}
  {answer : InheritedAnswer K}

/-- Every call loads the root, reads, and closes the root. -/
theorem inherited_cases (h : s.inherited call = some (s', answer)) :
    ∃ root d, s.rootGet = some root ∧ s.disk.Same d ∧ s' = s.rootClose d root := by
  cases call with
  | getIterator =>
      obtain ⟨r, hr, heq⟩ := Option.map_eq_some_iff.1 h
      cases heq
      rw [State.getIterator] at hr
      split at hr
      · cases hr
      next root hroot =>
        split at hr
        · cases hr
        next d leaf hd =>
          cases hr
          exact ⟨root, d, hroot, Disk.getLeftmostLeafNode_same _ hd, rfl⟩
  | rangeSearch lo hi =>
      obtain ⟨r, hr, heq⟩ := Option.map_eq_some_iff.1 h
      cases heq
      rw [State.rangeSearch] at hr
      split at hr
      · cases hr
      next root hroot =>
        split at hr
        next d leaf offset hd =>
          cases hr
          exact ⟨root, d, hroot, Disk.locateKey_same _ hd, rfl⟩
        · cases hr
  | toString =>
      obtain ⟨r, hr, heq⟩ := Option.map_eq_some_iff.1 h
      cases heq
      rw [State.toString] at hr
      split at hr
      · cases hr
      next root hroot =>
        split at hr
        · cases hr
        next d ret hd =>
          cases hr
          exact ⟨root, d, hroot, Disk.toString_same _ hd, rfl⟩

/-- The instance `root_` is bound to, if any, is what the store has for the root. -/
def State.RootCurrent (s : State K V) : Prop :=
  ∀ n, s.rootInstance = some n → s.blocks s.root = some (n.serialize V)

/-- **Nothing changes when the instance is what the store has.** -/
theorem inherited_same (hroot : s.RootCurrent) (h : s.inherited call = some (s', answer)) :
    s' = { s with rootInstance := none } := by
  obtain ⟨root, d, hget, hsame, rfl⟩ := inherited_cases h
  have hblocks : d.blocks = s.blocks := hsame.blocks
  have hclose : (d.close s.root root).blocks = s.blocks := by
    unfold State.rootGet at hget
    split at hget
    next n hn =>
      cases hget
      -- the write of a modified instance puts back what is there
      have hstored : d.blocks s.root = some (n.serialize V) := by rw [hblocks, hroot n hn]
      funext x
      by_cases hx : x = s.root
      · subst hx
        rw [← hblocks, hstored]
        unfold Disk.close Disk.write
        split
        · split
          · exact Function.update_self ..
          · exact hstored
        · exact hstored
      · rw [Disk.close_blocks_of_ne hx, hblocks]
    next => exact (Disk.close_same hget).blocks.trans hblocks
  rw [State.rootClose, hclose]

/-- **A modified instance is written back**, whatever the store has for the root. -/
theorem inherited_writes {n : InnerNode K} (hn : s.rootInstance = some n)
    (hmodified : n.modified = true) (hused : ¬ s.allocator.Free s.root)
    (h : s.inherited call = some (s', answer)) : s'.blocks s.root = some (n.serialize V) := by
  obtain ⟨root, d, hget, hsame, rfl⟩ := inherited_cases h
  rw [State.rootGet, hn] at hget
  cases hget
  have hfree : ¬ d.alloc.Free s.root := by rw [hsame.alloc]; exact hused
  exact Disk.close_blocks hfree (.inl hmodified)

end Calls

/-! ## §3. The contexts do not look at the instance. -/

/-- The state with another instance bound to `root_`. -/
@[simps] def State.bindRoot (s : State K V) (r : Option (InnerNode K)) : State K V :=
  { s with rootInstance := r }

/-- The outcome but for the instance. -/
def Outcome.forget : Outcome K V → Outcome K V
  | .again s => .again (s.bindRoot none)
  | .stop s => .stop (s.bindRoot none)
  | .fault f => .fault f

namespace State

section Frame

variable (s : State K V) (r : Option (InnerNode K)) (c : ContextId) (x : BlkAddress)

@[simp] theorem bindRoot_bindRoot (r' : Option (InnerNode K)) :
    (s.bindRoot r).bindRoot r' = s.bindRoot r' := rfl

@[simp] theorem setInsert_bindRoot (i : Nat) (y : InsertContext K V) :
    (s.bindRoot r).setInsert i y = (s.setInsert i y).bindRoot r := rfl

@[simp] theorem setSearch_bindRoot (i : Nat) (y : SearchContext K V) :
    (s.bindRoot r).setSearch i y = (s.setSearch i y).bindRoot r := rfl

@[simp] theorem setContext_bindRoot (b : CallBackContext) :
    (s.bindRoot r).setContext c b = (s.setContext c b).bindRoot r := rfl

@[simp] theorem setNextState_bindRoot (st : CtxState) :
    (s.bindRoot r).setNextState c st = (s.setNextState c st).bindRoot r := rfl

@[simp] theorem transition_bindRoot :
    (s.bindRoot r).transition c = (s.transition c).bindRoot r := rfl

@[simp] theorem enter_bindRoot (st : CtxState) :
    (s.bindRoot r).enter c st = (s.enter c st).bindRoot r := rfl

@[simp] theorem addToken_bindRoot (t : BarrierToken) :
    (s.bindRoot r).addToken c t = (s.addToken c t).bindRoot r := rfl

@[simp] theorem setBarrier_bindRoot (b : ContextBarrier ContextId) :
    (s.bindRoot r).setBarrier x b = (s.setBarrier x b).bindRoot r := rfl

@[simp] theorem fireContext_bindRoot (type : BarrierType)
    (rest : List (ContextId × BarrierType)) :
    (s.bindRoot r).fireContext x c type rest = (s.fireContext x c type rest).bindRoot r := rfl

@[simp] theorem allocate_bindRoot : (s.bindRoot r).allocate = s.allocate.bindRoot r := rfl

@[simp] theorem graduate_bindRoot (id : Nat) (cbF semaphore : Bool) (done : LogEvent K V) :
    (s.bindRoot r).graduate id cbF semaphore done
      = (s.graduate id cbF semaphore done).bindRoot r := rfl

@[simp] theorem requestBarrier_bindRoot (type : BarrierType) :
    (s.bindRoot r).requestBarrier c x type
      = ((s.requestBarrier c x type).1.bindRoot r, (s.requestBarrier c x type).2) := by
  simp only [requestBarrier, bindRoot_barriers]
  split <;> rfl

@[simp] theorem offerBarrier_bindRoot (fuel : Nat) :
    offerBarrier x fuel (s.bindRoot r) = (offerBarrier x fuel s).bindRoot r := by
  induction fuel generalizing s with
  | zero => rfl
  | succ fuel ih =>
      simp only [offerBarrier, bindRoot_barriers, fireContext_bindRoot, ih]
      split
      · rfl
      · split <;> rfl

@[simp] theorem giveBack_bindRoot (kept : List BarrierToken) (token : BarrierToken) :
    (s.bindRoot r).giveBack c kept token = (s.giveBack c kept token).bindRoot r := by
  simp [giveBack, removeBarrier]

@[simp] theorem releaseBarriers_bindRoot (n fuel : Nat) :
    releaseBarriers c n fuel (s.bindRoot r) = (releaseBarriers c n fuel s).bindRoot r := by
  induction fuel generalizing s with
  | zero => rfl
  | succ fuel ih =>
      simp only [releaseBarriers, bindRoot_contexts, giveBack_bindRoot, ih]
      split <;> rfl

@[simp] theorem releaseAllBut_bindRoot (n : Nat) :
    (s.bindRoot r).releaseAllBut c n = (s.releaseAllBut c n).bindRoot r :=
  releaseBarriers_bindRoot ..

@[simp] theorem releaseFront_bindRoot :
    (s.bindRoot r).releaseFront c = (s.releaseFront c).bindRoot r := by
  simp only [releaseFront, bindRoot_contexts, giveBack_bindRoot]
  split <;> rfl

@[simp] theorem releaseFronts_bindRoot (fuel : Nat) :
    releaseFronts c fuel (s.bindRoot r) = (releaseFronts c fuel s).bindRoot r := by
  induction fuel generalizing s with
  | zero => rfl
  | succ fuel ih => simp only [releaseFronts, releaseFront_bindRoot, ih]

@[simp] theorem apply_bindRoot (io : PendingIo K V) :
    (s.bindRoot r).apply io = (s.apply io).bindRoot r := by
  obtain ⟨c, type, x, data, applied⟩ := io
  cases type <;> cases c <;> rfl

@[simp] theorem submitIo_bindRoot (deferred : Bool) (io : PendingIo K V) :
    (s.bindRoot r).submitIo deferred io = (s.submitIo deferred io).bindRoot r := by
  simp only [submitIo, apply_bindRoot]
  cases deferred <;> rfl

@[simp] theorem asynchRead_bindRoot (deferred : Bool) :
    (s.bindRoot r).asynchRead deferred c x = (s.asynchRead deferred c x).bindRoot r :=
  submitIo_bindRoot ..

@[simp] theorem asynchWrite_bindRoot (deferred : Bool) (b : Block K V) :
    (s.bindRoot r).asynchWrite deferred c x b = (s.asynchWrite deferred c x b).bindRoot r :=
  submitIo_bindRoot ..

end Frame

end State

section Cases

variable {cap : Nat} {deferred : Bool} (s : State K V) (r : Option (InnerNode K)) (i : Nat)

theorem insertState0_forget :
    (insertState0 (s.bindRoot r) i).forget = (insertState0 s i).forget := by
  simp only [insertState0, State.bindRoot_inserts, State.bindRoot_root, State.bindRoot_depth,
    State.setInsert_bindRoot, State.setNextState_bindRoot, State.requestBarrier_bindRoot]
  generalize State.requestBarrier _ _ _ _ = p
  obtain ⟨s', granted⟩ := p
  cases granted <;> rfl

theorem insertState10001_forget :
    (insertState10001 (s.bindRoot r) i).forget = (insertState10001 s i).forget := by
  simp only [insertState10001, State.bindRoot_inserts, State.bindRoot_contexts,
    State.bindRoot_root, State.setInsert_bindRoot, State.releaseAllBut_bindRoot,
    State.enter_bindRoot]
  split
  · rfl
  · repeat' split
    all_goals rfl

theorem insertState1_forget :
    (insertState1 deferred (s.bindRoot r) i).forget = (insertState1 deferred s i).forget := by
  simp only [insertState1, State.bindRoot_inserts, State.setInsert_bindRoot,
    State.setNextState_bindRoot, State.asynchRead_bindRoot]
  repeat' split
  all_goals rfl

theorem insertFlush_forget (c : InsertContext K V) (ps : List (ParentNodeContext K)) :
    (insertFlush deferred (s.bindRoot r) i c ps).forget = (insertFlush deferred s i c ps).forget := by
  induction ps with
  | nil => rfl
  | cons p ps ih =>
      simp only [insertFlush, State.setInsert_bindRoot, State.setNextState_bindRoot,
        State.asynchWrite_bindRoot]
      split
      · rfl
      · exact ih

theorem insertState10_forget :
    (insertState10 (s.bindRoot r) i).forget = (insertState10 s i).forget := by
  simp only [insertState10, State.bindRoot_inserts, State.setInsert_bindRoot, State.enter_bindRoot]
  split <;> rfl

theorem insertState11_forget :
    (insertState11 (s.bindRoot r) i).forget = (insertState11 s i).forget := by
  simp only [insertState11, State.bindRoot_inserts, State.setInsert_bindRoot,
    State.releaseAllBut_bindRoot, State.graduate_bindRoot]
  split <;> rfl

/-- State 12 binds the new root, whatever was bound before. -/

theorem insertState12_forget :
    (insertState12 deferred (s.bindRoot r) i).forget = (insertState12 deferred s i).forget := by
  simp only [insertState12, insertNewRoot, State.bindRoot_inserts, State.bindRoot_allocator,
    State.bindRoot_depth, State.setInsert_bindRoot]
  repeat' split
  all_goals rfl

theorem insertState13_forget :
    (insertState13 (s.bindRoot r) i).forget = (insertState13 s i).forget := by
  simp only [insertState13, State.bindRoot_inserts, State.bindRoot_depth, State.setInsert_bindRoot,
    State.releaseAllBut_bindRoot, State.enter_bindRoot]
  rfl

theorem searchState0_forget :
    (searchState0 (s.bindRoot r) i).forget = (searchState0 s i).forget := by
  simp only [searchState0, State.setNextState_bindRoot, State.bindRoot_searches,
    State.requestBarrier_bindRoot]
  generalize State.requestBarrier _ _ _ _ = p
  obtain ⟨s', granted⟩ := p
  cases granted <;> rfl

theorem searchState1_forget :
    (searchState1 deferred (s.bindRoot r) i).forget = (searchState1 deferred s i).forget := by
  simp only [searchState1, State.bindRoot_contexts, State.releaseFront_bindRoot]
  split
  · rfl
  · split <;> simp [Outcome.forget]

theorem searchFinish_forget (q : SearchRequest K) (found : Option V) :
    (searchFinish (s.bindRoot r) i q found).forget = (searchFinish s i q found).forget := by
  simp only [searchFinish, State.bindRoot_searches, State.setSearch_bindRoot,
    State.graduate_bindRoot, State.bindRoot_contexts, State.releaseFronts_bindRoot]
  rfl

variable [LinearOrder K]

theorem insertState2_forget :
    (insertState2 cap deferred (s.bindRoot r) i).forget = (insertState2 cap deferred s i).forget := by
  simp only [insertState2, insertLeaf, insertInner, State.bindRoot_inserts, State.bindRoot_contexts,
    State.bindRoot_root, State.bindRoot_allocator, State.allocate_bindRoot,
    State.setInsert_bindRoot, State.setNextState_bindRoot, State.enter_bindRoot,
    State.asynchWrite_bindRoot]
  repeat' split
  all_goals rfl

theorem insertState9_forget :
    (insertState9 cap deferred (s.bindRoot r) i).forget = (insertState9 cap deferred s i).forget := by
  simp only [insertState9, insertAddSplit, State.bindRoot_inserts, State.bindRoot_root,
    State.bindRoot_allocator, State.allocate_bindRoot, State.setInsert_bindRoot,
    State.setNextState_bindRoot, State.asynchWrite_bindRoot]
  repeat' split
  all_goals first | rfl | exact insertFlush_forget ..

theorem searchState2_forget :
    (searchState2 (s.bindRoot r) i).forget = (searchState2 s i).forget := by
  simp only [searchState2, State.bindRoot_searches, State.setSearch_bindRoot, State.enter_bindRoot]
  repeat' split
  all_goals first | rfl | exact searchFinish_forget ..

theorem ctxCase_forget (c : ContextId) :
    (ctxCase cap deferred (s.bindRoot r) c).forget = (ctxCase cap deferred s c).forget := by
  cases c with
  | search i =>
      simp only [ctxCase, searchCase, State.bindRoot_contexts]
      split
      · exact searchState0_forget ..
      · exact searchState1_forget ..
      · exact searchState2_forget ..
      · rfl
  | insert i =>
      simp only [ctxCase, insertCase, State.bindRoot_contexts]
      split
      · exact insertState0_forget ..
      · exact insertState10001_forget ..
      · exact insertState1_forget ..
      · exact insertState2_forget ..
      · exact insertState9_forget ..
      · exact insertState10_forget ..
      · exact insertState11_forget ..
      · exact insertState12_forget ..
      · exact insertState13_forget ..

end Cases

section Runs

variable (cap : Nat) (deferred : Bool) {s s' : State K V}

/-- States that differ in the instance only. -/
def State.Alike (s s' : State K V) : Prop := s'.bindRoot none = s.bindRoot none

theorem State.Alike.eq_bindRoot (h : s.Alike s') : s' = s.bindRoot s'.rootInstance :=
  congrArg (fun t => t.bindRoot s'.rootInstance) h

/-- Results that differ in the instance only. -/
def AlikeResult (e e' : Except Fault (State K V)) : Prop :=
  e'.map (fun t => t.bindRoot none) = e.map (fun t => t.bindRoot none)

/-- Outcomes that differ in the instance only. -/
def Outcome.Alike : Outcome K V → Outcome K V → Prop
  | .again s, .again s' => s.Alike s'
  | .stop s, .stop s' => s.Alike s'
  | .fault f, .fault f' => f' = f
  | _, _ => False

theorem Outcome.alike_of_forget {o o' : Outcome K V} (h : o'.forget = o.forget) : o.Alike o' := by
  cases o <;> cases o' <;> simp only [Outcome.forget, reduceCtorEq, Outcome.again.injEq,
    Outcome.stop.injEq, Outcome.fault.injEq] at h
  all_goals exact h

variable [LinearOrder K]

theorem runContext_alike {c : ContextId} {fuel : Nat} (h : s.Alike s') :
    AlikeResult (runContext cap deferred c fuel s) (runContext cap deferred c fuel s') := by
  induction fuel generalizing s s' with
  | zero => rfl
  | succ fuel ih =>
      have hcase : (ctxCase cap deferred s c).Alike (ctxCase cap deferred s' c) := by
        rw [h.eq_bindRoot]
        exact Outcome.alike_of_forget (ctxCase_forget ..)
      rw [runContext, runContext]
      revert hcase
      cases ctxCase cap deferred s c <;> cases ctxCase cap deferred s' c <;> intro hcase
      all_goals first
        | exact hcase.elim
        | exact ih hcase
        | exact congrArg Except.ok hcase
        | exact congrArg Except.error hcase

/-- A step that is possible in one is possible in the other, with the same result. -/
def AlikeStep : Option (Except Fault (State K V)) → Option (Except Fault (State K V)) → Prop
  | some e, some e' => AlikeResult e e'
  | none, none => True
  | _, _ => False

theorem step_alike (h : s.Alike s') (a : Action K V) :
    AlikeStep (step cap deferred s a) (step cap deferred s' a) := by
  rw [h.eq_bindRoot]
  generalize s'.rootInstance = r
  cases a with
  | submit op cbF semaphore ownership => exact rfl
  | push n =>
      simp only [step, State.bindRoot_submitting, State.bindRoot_requestQueue]
      split
      · trivial
      · split
        · exact rfl
        · trivial
  | admission =>
      simp only [step, State.bindRoot_freeContextSlots, State.bindRoot_requestQueue]
      split
      · trivial
      · split
        · trivial
        next q queue _ =>
          show AlikeResult (admitRequest s q queue) (admitRequest (s.bindRoot r) q queue)
          cases q with
          | search q =>
              simp only [admitRequest, State.addLog, State.bindRoot_freeSearchContexts]
              split <;> exact rfl
          | insert q =>
              simp only [admitRequest, State.addLog, State.bindRoot_freeInsertContexts]
              split <;> exact rfl
  | run list n =>
      have htake : (s.bindRoot r).takeReady n list
          = (s.takeReady n list).map (fun p => (p.1, p.2.bindRoot r)) := by
        cases list <;> simp only [State.takeReady, Option.map_map] <;> rfl
      simp only [step, htake]
      cases s.takeReady n list with
      | none => trivial
      | some taken => exact runContext_alike cap deferred rfl
  | effect n =>
      simp only [step, State.bindRoot_pendingIo, State.apply_bindRoot]
      split
      · trivial
      · split
        · trivial
        · exact rfl
  | complete n =>
      simp only [step, State.bindRoot_pendingIo, State.bindRoot_contexts]
      split
      · trivial
      · split
        · trivial
        · split <;> exact rfl
  | terminate => exact rfl

/-- **The instance makes no difference to what the contexts do.** -/
theorem run_alike (h : s.Alike s') (as : List (Action K V)) :
    (run cap deferred s' as).map (fun t => t.bindRoot none)
      = (run cap deferred s as).map (fun t => t.bindRoot none) := by
  induction as generalizing s s' with
  | nil => exact congrArg some h
  | cons a as ih =>
      have hstep := step_alike cap deferred h a
      rw [run, run]
      revert hstep
      rcases step cap deferred s a with - | (f | t) <;>
        rcases step cap deferred s' a with - | (f' | t') <;> intro hstep
      all_goals first
        | rfl
        | exact hstep.elim
        | exact ih (Except.ok.inj hstep)
        | cases hstep

/-- What the clients see of a run. -/
theorem run_log_alike (h : s.Alike s') (as : List (Action K V)) :
    (run cap deferred s' as).map State.log = (run cap deferred s as).map State.log := by
  have hlog := congrArg (Option.map State.log) (run_alike cap deferred h as)
  rw [Option.map_map, Option.map_map] at hlog
  exact hlog

end Runs

/-! ## §4. The calls after a run. -/

section Rest

variable [LinearOrder K] {cap q : Nat} {m₀ : K → Option V} {s : State K V} {ph : ContextId → Phase}
  {g : Ghost K V}

/-- A range search does not start below all that is stored, unless the root is a leaf. -/
def Inherited.Located (s : State K V) : Inherited K → Prop
  | .rangeSearch key_low _ => s.depth = 1 ∨ ∃ k v, Contents s.raw s.root k v ∧ k ≤ key_low
  | _ => True

/-- The nodes of the tree can be read. -/
theorem Good.readable (h : Good cap q m₀ s ph g) {row : List (K × BlkAddress)} {depth : Nat}
    (ht : Tree s.raw g.G row depth) : s.disk.Readable s.raw g.G := by
  intro a sp hG
  obtain ⟨sh, hE, -⟩ := ht.node hG
  obtain ⟨b, hb, rfl⟩ := Option.map_eq_some_iff.1 hE
  have hused : ¬ s.disk.alloc.Free a := fun hfree => by
    rw [(h.shared.unused a hfree).1] at hG
    cases hG
  exact ⟨b.deserialize, Disk.get_eq hused hb, hE⟩

omit [LinearOrder K] in
/-- `root_->get` gives what the store has. -/
theorem rootGet_current {G : Plan K BlkAddress} {sp : Span K} (hd : s.disk.Readable s.raw G)
    (hG : G s.root = some sp) (hroot : s.RootCurrent) :
    ∃ n, s.rootGet = some n ∧ s.raw s.root = some n.shape := by
  unfold State.rootGet
  match hn : s.rootInstance with
  | some n =>
      refine ⟨.inner n, rfl, ?_⟩
      rw [State.raw, hroot n hn]
      rfl
  | none => exact hd s.root sp hG

/-- **When all requests are done, the calls return.** -/
theorem Good.inherited_ends [ToString K] [ToString V] (h : Good cap q m₀ s ph g)
    (hdone : unfinished s.log = []) (hroot : s.RootCurrent) {call : Inherited K}
    (hcall : call.Located s) : ∃ s' answer, s.inherited call = some (s', answer) := by
  obtain ⟨⟨κ, ht⟩, -⟩ := h.at_rest hdone
  have hd := h.readable ht
  have hG : g.G s.root = some ⟨s.depth, ⊥, ⊤⟩ := h.shared.ok.plan_root
  obtain ⟨root, hget, hE⟩ := rootGet_current hd hG hroot
  cases call with
  | getIterator =>
      obtain ⟨⟨d, leaf⟩, hr⟩ := Disk.getLeftmostLeafNode_ends ht hd s.depth le_rfl hG hE
      refine ⟨s.rootClose d root, .iterator ⟨leaf, 0, none⟩, ?_⟩
      simp only [State.inherited, State.getIterator, hget, hr, Option.map_some]
  | rangeSearch key_low key_high =>
      obtain ⟨d, p, hr⟩ : ∃ d p, s.disk.locateKey s.depth root key_low = some (d, some p) := by
        rcases hcall with hleaf | ⟨k, v, hcontents, hle⟩
        · -- a root at level 1 is a leaf
          cases root with
          | leaf n =>
              rw [hleaf]
              exact ⟨_, _, rfl⟩
          | inner n =>
              have hlevel := (ht.innerOk hG hE).level
              simp only [hleaf] at hlevel
              omega
        · exact Disk.locateKey_ends ht hd (ht.contents_iff.1 hcontents) hle s.depth le_rfl hG hE
            ⟨bot_le, key_lt_top key_low⟩
      refine ⟨s.rootClose d root, .iterator ⟨p.1, p.2, some key_high⟩, ?_⟩
      simp only [State.inherited, State.rangeSearch, hget, hr, Option.map_some]
  | toString =>
      obtain ⟨⟨d, ret⟩, hr⟩ := Disk.toString_ends ht s.depth hd le_rfl hG hE
      refine ⟨s.rootClose d root, .text ret, ?_⟩
      simp only [State.inherited, State.toString, hget, hr, Option.map_some]

/-- **The inherited operations after any run**, when the instance `root_` is bound to is
what the store has for the root.  A call that returns leaves every block and the root
as they are, and whatever the clients and the worker do later, the clients see what
they would have seen without the call.  When no request is pending and the I/O is not
delayed, the calls do return. -/
theorem run_inherited [ToString K] [ToString V] (hcap : 2 ≤ cap) (q : Nat) (deferred : Bool)
    {blocks : BlkAddress → Option (Block K V)} {allocator : Allocator} {root : BlkAddress}
    {depth : Nat} (hstored : Stored cap blocks allocator root depth m₀) (as : List (Action K V))
    (s : State K V) (hrun : run cap deferred (start q blocks allocator root depth) as = some s)
    (hdone : unfinished s.log = []) (hroot : s.RootCurrent) (call : Inherited K)
    (hcall : call.Located s) :
    (deferred = false → ∃ s' answer, s.inherited call = some (s', answer))
    ∧ ∀ s' answer, s.inherited call = some (s', answer) →
      s'.blocks = s.blocks ∧ s'.root = s.root
      ∧ ∀ bs, (run cap deferred s' bs).map State.log = (run cap deferred s bs).map State.log := by
  constructor
  · rintro rfl
    obtain ⟨g₀, hgood₀, hprompt₀, -⟩ := start_good hstored q
    obtain ⟨ph, g, hgood, -, -⟩ := run_sound hcap hgood₀ hprompt₀ hrun
    exact hgood.inherited_ends hdone hroot hcall
  · intro s' answer h
    have hs' := inherited_same hroot h
    subst hs'
    have halike : s.Alike { s with rootInstance := none } := rfl
    exact ⟨rfl, rfl, fun bs => run_log_alike cap deferred halike bs⟩

end Rest

/-- The root was split, and the store has it as it was created. -/
theorem run_inherited_three :
    ∃ s, run 2 false (init 1) threeInserts = some s ∧ s.rootInstance ≠ none ∧ s.RootCurrent
      ∧ (∃ s' answer, s.inherited (.rangeSearch 1 9) = some (s', answer))
      ∧ ∀ s' answer, s.inherited (.rangeSearch 1 9) = some (s', answer) →
        s'.blocks = s.blocks ∧ s'.root = s.root
        ∧ ∀ bs, (run 2 false s' bs).map State.log = (run 2 false s bs).map State.log := by
  have hrun : (run 2 false (init 1) threeInserts).map (fun s =>
      ((unfinished s.log, s.root), s.rootInstance, [s.blocks 2, s.blocks 0]))
      = some (([], 2), some ⟨2, [(1, 0), (2, 1)], true⟩, [some (.inner 2 [(1, 0), (2, 1)]),
        some (.leaf 0 (some 1) [(1, 10)])]) := by decide +kernel
  obtain ⟨s, hs, heq⟩ := Option.map_eq_some_iff.1 hrun
  simp only [Prod.mk.injEq, List.cons.injEq, and_true] at heq
  obtain ⟨⟨hdone, hroot⟩, hinst, hblock, hleaf⟩ := heq
  have hcurrent : s.RootCurrent := by
    intro n hn
    rw [hinst] at hn
    cases hn
    rw [hroot, hblock]
    rfl
  have hcontents : Contents s.raw s.root 1 10 := by
    have hinner : s.raw s.root = some (.inner [(1, 0), (2, 1)]) := by
      rw [State.raw, hroot, hblock]
      rfl
    have hentry : s.raw 0 = some (.leaf [(1, 10)] (some 1)) := by
      rw [State.raw, hleaf]
      rfl
    exact ⟨_, 0, _, _, Reach.child Reach.root hinner List.mem_cons_self, hentry, by simp⟩
  obtain ⟨hends, hsame⟩ := run_inherited le_rfl 1 false (init_stored (q := 1) 0) threeInserts s hs
    hdone hcurrent (.rangeSearch 1 9) (.inr ⟨1, 10, hcontents, le_rfl⟩)
  exact ⟨s, hs, by rw [hinst]; simp, hcurrent, hends rfl, hsame⟩

/-! ## §5. A root that is written back. -/

/-- A read or write completes and its context goes on, `n` times. -/
def goOn (n : Nat) : List (Action Nat Nat) :=
  (List.replicate n [.complete 0, .run .blk 0]).flatten

/-- The root is split at the third insert; the fourth lowers its first key. -/
def lowerFirstKey : List (Action Nat Nat) := threeInserts ++ insertOf 0 5 ++ goOn 5

/-- A search of 0 that reads `n` nodes. -/
def searchZero (n : Nat) : List (Action Nat Nat) :=
  [.submit (.search 0) false false false, .push 0, .admission, .run .admission 0] ++ goOn n

/-- **`get_iterator` loses a key.**  The store has the root with the first key 0, and
the instance bound at its creation the first key 1; the call writes the latter back,
and 0 is below every key of the root. -/
theorem getIterator_loses_key :
    ∃ s s' it, run 2 false (init 1) lowerFirstKey = some s ∧ unfinished s.log = []
      ∧ s.inherited .getIterator = some (s', it) ∧ s'.blocks s.root ≠ s.blocks s.root
      ∧ (run 2 false s (searchZero 2)).bind (fun t => t.log.getLast?)
        = some (.finishSearch 4 (some 5))
      ∧ (run 2 false s' (searchZero 1)).bind (fun t => t.log.getLast?)
        = some (.finishSearch 4 none) := by
  have hrun : ((run 2 false (init 1) lowerFirstKey).bind (fun s =>
      (s.inherited .getIterator).map (fun p => (unfinished s.log,
        decide (p.1.blocks s.root = s.blocks s.root),
        (run 2 false s (searchZero 2)).bind (fun t => t.log.getLast?),
        (run 2 false p.1 (searchZero 1)).bind (fun t => t.log.getLast?)))))
      = some ([], false, some (.finishSearch 4 (some 5)), some (.finishSearch 4 none)) := by
    decide +kernel
  obtain ⟨s, hs, hcall⟩ := Option.bind_eq_some_iff.1 hrun
  obtain ⟨⟨s', it⟩, hs', heq⟩ := Option.map_eq_some_iff.1 hcall
  simp only [Prod.mk.injEq, decide_eq_false_iff_not] at heq
  exact ⟨s, s', it, hs, heq.1, hs', heq.2⟩

end PullBasedBPlusTree

end NvmTree
