/-
  NvmTree.Alone.Pull — one insertion of `pull_based_b_plus_tree` follows the machine.

  The context reads a node, waits, and goes down; it writes one or two blocks, waits
  for them, and goes up.  While it waits, an outstanding write may have taken effect or
  not, so the store is that of the machine only after all of them (`Landing`).  A way
  down that ends in state 13 has changed nothing, and the copies it leaves on
  `pending_parent_nodes_` are not modified; the second way starts at the root again.

  `Parked` is what holds between two activations, `Active` what holds inside of one;
  both bound what is left to do.

  Main results:
    * `insertCase_onward` — one `case` of `run` goes on inside or comes to a wait.
    * `runContext_parked` — an activation comes to a wait.
-/
import NvmTree.Alone.Context

namespace NvmTree

open RangeTree

namespace PullBasedBPlusTree

open Alone (Machine)

variable {K V : Type*}

/-! ## §1. What the context has of the machine. -/

/-- A copy of the machine on `pending_parent_nodes_`. -/
def pending (p : Alone.Frame K) : ParentNodeContext K := ⟨p.node, p.position⟩

def ofSplit (s : Alone.Split K V) : Split K V := ⟨s.left, s.right, s.boundary⟩

/-- The tokens are of nodes above. -/
def Above (tokens : List BarrierToken) (parents : List (Alone.Frame K)) : Prop :=
  ∀ t ∈ tokens, t.barrierId ∈ Alone.ids parents

/-- `pending_parent_nodes_` holds the copies of this way over those of the first one. -/
def Pending (y : InsertContext K V) (parents : List (Alone.Frame K)) : Prop :=
  ∃ stale, y.pendingParentNodes = parents.map pending ++ stale ∧ Unmodified stale

section Facts

variable [LinearOrder K] (cap : Nat) (G : Plan K BlkAddress) (r : InsertRequest K V)
  (τ : Machine K V)

/-- On the way down to `node`; `M` bounds the steps of the machine, those of a second way
included. -/
structure Downward (σ : Machine K V) (y : InsertContext K V) (node : BlkAddress)
    (parents : List (Alone.Frame K)) (M : Nat) : Prop where
  leads : ∃ n, Machine.Leads cap G r.key r.value τ n (σ.goto (.down node parents)) ∧ n ≤ M
    ∧ (y.optimistic = true → ∃ k,
      Machine.Leads cap G r.key r.value τ k (σ.goto (.down σ.root [])) ∧ n + k < M)
  copies : y.optimistic = true → Unmodified (parents.map pending)
  pending : Pending y parents
  nodeRef : y.nodeRef = some node
  level : ∃ sp, G node = some sp ∧ y.currentNodeLevel = sp.level
  leaf : y.nextVisitIsLeafNode = decide (y.currentNodeLevel = 1)
  refer : y.referToRoot = true → parents = []

/-- On the way up with what the node below gave. -/
structure Upward (σ : Machine K V) (y : InsertContext K V) (split : Option (Alone.Split K V))
    (parents : List (Alone.Frame K)) (n : Nat) : Prop where
  leads : Machine.Leads cap G r.key r.value τ n (σ.goto (.up split parents))
  pending : Pending y parents
  flag : y.childNodeSplit = split.isSome
  split : ∀ s ∈ split, y.split = some (ofSplit s)

/-- Where the writes lead to: with all of them applied the store is `σ`. -/
def Landed (σ : Machine K V) (y : InsertContext K V) (n : Nat) : CtxState → Prop
  | .s10 => ∃ split parents, Upward cap G r τ σ y split parents n ∧ (split ≠ none → parents ≠ [])
  | .s12 => ∃ s, Upward cap G r τ σ y (some s) [] n
  | .s11 => τ = σ.goto .done ∧ y.writeBackCompletionTarget = 1
  | _ => False

/-- Inside of an activation, before the `case` of the state. -/
inductive Active (i N : Nat) (s : State K V) : CtxState → Prop
  | s0 {σ b y node parents M} (solo : Solo i r σ b y [] [] s) (state : b.currentState = .s0)
      (down : Downward cap G r τ σ (atRoot s i) node parents M) (awaits : y.awaitsState2 = false)
      (above : Above b.obtainedBarriers parents)
      (second : y.optimistic = false → y.freeSlotAvailableInParent = true →
        b.obtainedBarriers ≠ []) (bound : 10 * M + 3 ≤ N) : Active i N s .s0
  | s10001 {σ b y node parents M others} (solo : Solo i r σ b y [] [] s)
      (state : b.currentState = .s10001) (down : Downward cap G r τ σ y node parents M)
      (awaits : y.awaitsState2 = false) (tokens : b.obtainedBarriers = ⟨node, y.access⟩ :: others)
      (above : Above others parents)
      (second : y.optimistic = false → y.freeSlotAvailableInParent = true → others ≠ [])
      (bound : 10 * M + 3 ≤ N) : Active i N s .s10001
  | s1 {σ b y node parents M others} (solo : Solo i r σ b y [] [] s)
      (state : b.currentState = .s1) (down : Downward cap G r τ σ y node parents M)
      (refer : y.referToRoot = false) (awaits : y.awaitsState2 = false)
      (last : y.lastState1 = false)
      (tokens : b.obtainedBarriers = ⟨node, y.access⟩ :: others) (above : Above others parents)
      (bound : 10 * M + 3 ≤ N) : Active i N s .s1
  | s2 {σ b y node parents M others} (solo : Solo i r σ b y [] [] s)
      (state : b.currentState = .s2) (down : Downward cap G r τ σ y node parents M)
      (refer : y.referToRoot = false)
      (tokens : b.obtainedBarriers = ⟨node, y.access⟩ :: others) (above : Above others parents)
      (buffer : y.buffer = σ.blocks node) (bound : 10 * M ≤ N) : Active i N s .s2
  | s13 {σ b y n} (solo : Solo i r σ b y [] [] s) (state : b.currentState = .s13)
      (leads : Machine.Leads cap G r.key r.value τ n (σ.goto (.down σ.root [])))
      (stale : Unmodified y.pendingParentNodes) (awaits : y.awaitsState2 = false)
      (bound : 10 * n + 3 ≤ N) : Active i N s .s13
  | s9 {σ b y split parents n} (solo : Solo i r σ b y [] [] s) (state : b.currentState = .s9)
      (up : Upward cap G r τ σ y split parents n) (below : split ≠ none → parents ≠ [])
      (bound : 10 * n ≤ N) : Active i N s .s9
  | wrote {σ b y st B n m ios} (solo : Solo i r σ b y (List.replicate m (.insert i)) ios s)
      (state : b.currentState = st) (next : b.nextState = some st)
      (landing : Landing i ios σ.blocks B) (landed : Landed cap G r τ { σ with blocks := B } y n st)
      (ne : st ≠ .s11)
      (count : y.writeBackCompletionCount + 1 + ios.length + m = y.writeBackCompletionTarget)
      (bound : 10 * n + load ios m ≤ N) : Active i N s st
  | s11 {σ b y} (solo : Solo i r σ b y [] [] s) (state : b.currentState = .s11)
      (ends : τ = σ.goto .done) : Active i N s .s11

/-- Between two activations. -/
inductive Parked (i N : Nat) (s : State K V) : Prop
  | reads {σ b y node parents M others m ios}
      (solo : Solo i r σ b y (List.replicate m (.insert i)) ios s)
      (down : Downward cap G r τ σ y node parents M) (refer : y.referToRoot = false)
      (tokens : b.obtainedBarriers = ⟨node, y.access⟩ :: others) (above : Above others parents)
      (next : b.nextState = some .s2) (ready : 0 < m → b.currentState = .s2)
      (read : (m = 1 ∧ ios = [] ∧ y.buffer = σ.blocks node)
        ∨ (m = 0 ∧ ∃ applied, ios = [⟨.insert i, .readIo, node, none, applied⟩]
          ∧ (applied = true → y.buffer = σ.blocks node)))
      (bound : 10 * M + load ios m ≤ N)
  | writes {σ b y st B n m ios} (solo : Solo i r σ b y (List.replicate m (.insert i)) ios s)
      (landing : Landing i ios σ.blocks B) (landed : Landed cap G r τ { σ with blocks := B } y n st)
      (next : b.nextState = some st) (ready : 0 < m → b.currentState = st)
      (count : y.writeBackCompletionCount + ios.length + m = y.writeBackCompletionTarget)
      (some_left : 0 < ios.length + m) (bound : 10 * n + load ios m ≤ N)
  | served (finished : .finishInsert r.id ∈ s.log) (ends : s.machine = τ)
      (submitting : s.submitting = []) (queue : s.requestQueue = [])
      (admission : s.admissionContexts = []) (barrierReady : s.barrierReadyContexts = [])
      (blkReady : s.blkReadyContexts = []) (pendingIo : s.pendingIo = [])

/-- What a `case` leads to: another one of lower rank, or a wait. -/
def caseRank : CtxState → Nat
  | .s1 | .s11 | .s12 => 0
  | .s10001 | .s9 => 1
  | .s0 | .s10 => 2
  | .s13 => 3
  | .s2 => 4

def Onward (i N : Nat) (rk : Nat) (o : Outcome K V) : Prop :=
  (∃ s st, o = .again s ∧ caseRank st < rk ∧ Active cap G r τ i N s st)
    ∨ ∃ s, o = .stop s ∧ Parked cap G r τ i N s

/-- The context after it visited `x` on its way down. -/
def visited (key : K) (y : InsertContext K V) (x : InnerNode K) (child : BlkAddress) :
    InsertContext K V :=
  { y with
    pendingParentNodes := pending (Alone.Frame.toward key x) :: y.pendingParentNodes
    nodeRef := some child
    freeSlotAvailableInParent := (Alone.Frame.toward key x).node.hasFreeSlot cap
    parentBoundaryUpdate := decide (x.locateChildIndex key < 0)
    nextVisitIsLeafNode := decide (y.currentNodeLevel = 2)
    currentNodeLevel := y.currentNodeLevel - 1 }

end Facts

/-! ## §2. On the way down. -/

section Down

variable [LinearOrder K] {cap : Nat} {G : Plan K BlkAddress} {r : InsertRequest K V}
  {τ σ : Machine K V} {b : CallBackContext} {y : InsertContext K V} {node : BlkAddress}
  {parents : List (Alone.Frame K)} {M N n i : Nat} {s : State K V} {tokens : List BarrierToken}

omit [LinearOrder K] in
/-- The context at the node that it visits next. -/
theorem atRoot_eq (h : Solo i r σ b y [] [] s) : atRoot s i =
    if y.nodeRef = none then
      { y with
        lastState1 := false
        referToRoot := true
        nodeRef := some σ.root
        currentNodeLevel := σ.depth }
    else { y with lastState1 := false } := by
  unfold atRoot
  rw [h.data, ← h.machine]
  rfl

omit [LinearOrder K] in
theorem atRoot_rest (h : Solo i r σ b y [] [] s) :
    (atRoot s i).optimistic = y.optimistic ∧ (atRoot s i).awaitsState2 = y.awaitsState2
      ∧ (atRoot s i).freeSlotAvailableInParent = y.freeSlotAvailableInParent := by
  rw [atRoot_eq h]
  split
  · exact ⟨rfl, rfl, rfl⟩
  · exact ⟨rfl, rfl, rfl⟩

theorem Downward.ok (h : Downward cap G r τ σ y node parents M) :
    (σ.goto (.down node parents)).Ok cap G := by
  obtain ⟨n, hleads, -⟩ := h.leads
  exact hleads.ok

theorem Downward.under (h : Downward cap G r τ σ y node parents M) :
    Alone.Under G σ.root node parents :=
  h.ok.job.2.2.1

/-- The fields that the way down does not look at. -/
theorem Downward.of_eq {y' : InsertContext K V} (h : Downward cap G r τ σ y node parents M)
    (hopt : y'.optimistic = y.optimistic) (hpending : y'.pendingParentNodes = y.pendingParentNodes)
    (hnode : y'.nodeRef = y.nodeRef) (hlevel : y'.currentNodeLevel = y.currentNodeLevel)
    (hleaf : y'.nextVisitIsLeafNode = y.nextVisitIsLeafNode)
    (hrefer : y'.referToRoot = true → y.referToRoot = true) :
    Downward cap G r τ σ y' node parents M where
  leads := by
    rw [hopt]
    exact h.leads
  copies := by
    rw [hopt]
    exact h.copies
  pending := by
    unfold Pending
    rw [hpending]
    exact h.pending
  nodeRef := hnode.trans h.nodeRef
  level := by
    rw [hlevel]
    exact h.level
  leaf := by
    rw [hleaf, hlevel]
    exact h.leaf
  refer := fun hy => h.refer (hrefer hy)

theorem insertState0_onward (h : Active cap G r τ i N s .s0) :
    Onward cap G r τ i N (caseRank .s0) (insertState0 s i) := by
  cases h with
  | wrote _ _ _ _ landed => exact landed.elim
  | @s0 σ b y node parents M solo _ down awaits above second bound =>
  obtain ⟨x, hx, heq⟩ := insertState0_eq s i rfl
  cases down.nodeRef.symm.trans hx
  obtain ⟨hopt, hawaits, hfree⟩ := atRoot_rest solo
  have hreq : (atRoot s i).request = y.request := by
    rw [atRoot_request, solo.data]
  have hnext := (solo.setInsert hreq).setNextState .s10001
  have hfresh : ∀ t ∈ b.obtainedBarriers, t.barrierId ≠ node :=
    fun t ht hid => down.under.not_mem (hid ▸ above t ht)
  rw [heq, if_pos (hnext.balanced.grants hfresh)]
  refine .inl ⟨_, .s10001, rfl, by decide, .s10001 ((hnext.grant node _).transition rfl) rfl down
    (hawaits.trans awaits) rfl above ?_ bound⟩
  rw [hopt, hfree]
  exact second

omit [LinearOrder K] in
theorem Above.sublist {tokens' : List BarrierToken} (h : Above tokens parents)
    (hsub : tokens' ⊆ tokens) : Above tokens' parents := fun t ht => h t (hsub ht)

/-- State 10001: the root is the one that was referred to, since nobody changed it. -/
theorem insertState10001_onward (h : Active cap G r τ i N s .s10001) :
    Onward cap G r τ i N (caseRank .s10001) (insertState10001 s i) := by
  cases h with
  | wrote _ _ _ _ landed => exact landed.elim
  | @s10001 σ b y node parents M others solo _ down awaits htokens above second bound =>
  have hroot : s.root = σ.root := congrArg Machine.root solo.machine
  have hrefer : (y.referToRoot && decide (node ≠ s.root)) = false := by
    cases hy : y.referToRoot with
    | false => rfl
    | true =>
        have heq : node = s.root := (down.under.eq_root_iff.2 (down.refer hy)).trans hroot.symm
        simp [heq]
  unfold insertState10001
  rw [solo.context, htokens, solo.data]
  dsimp only
  rw [if_neg (by rw [hrefer]; exact Bool.false_ne_true)]
  have hset : Solo i r σ b { y with lastState1 := false, referToRoot := false } [] []
      (s.setInsert i { y with lastState1 := false, referToRoot := false }) := solo.setInsert rfl
  have hdown : Downward cap G r τ σ { y with lastState1 := false, referToRoot := false } node
      parents M := down.of_eq rfl rfl rfl rfl rfl (by simp)
  -- whatever is released, the token of the node itself stays
  have hkeep : ∀ n, ∃ kept, b.obtainedBarriers.take (n + 1) = ⟨node, y.access⟩ :: kept
      ∧ Above kept parents := by
    intro n
    rw [htokens]
    exact ⟨_, rfl, above.sublist (List.take_subset ..)⟩
  have hgo : ∀ n, Onward cap G r τ i N (caseRank .s10001)
      (.again (((s.setInsert i { y with lastState1 := false, referToRoot := false }).releaseAllBut
        (.insert i) (n + 1)).enter (.insert i) .s1)) := by
    intro n
    obtain ⟨kept, htake, hkept⟩ := hkeep n
    exact .inl ⟨_, .s1, rfl, by decide, .s1 ((hset.releaseAllBut (n + 1)).enter .s1) rfl hdown
      rfl awaits rfl htake hkept bound⟩
  by_cases hopt : y.optimistic = true
  · rw [if_pos hopt]
    exact hgo 0
  · rw [if_neg hopt]
    by_cases hfree : (y.freeSlotAvailableInParent && !y.parentBoundaryUpdate) = true
    · have hne := second (Bool.eq_false_iff.2 hopt) (Bool.and_eq_true_iff.1 hfree).1
      rw [if_pos hfree, if_neg (by rw [List.isEmpty_iff]; exact hne)]
      exact hgo 1
    · rw [if_neg hfree]
      exact .inl ⟨_, .s1, rfl, by decide, .s1 (hset.enter .s1) rfl hdown rfl awaits rfl htokens
        above bound⟩

/-- State 1: the node is read. -/
theorem insertState1_onward (h : Active cap G r τ i N s .s1) (deferred : Bool) :
    Onward cap G r τ i N (caseRank .s1) (insertState1 deferred s i) := by
  cases h with
  | wrote _ _ _ _ landed => exact landed.elim
  | @s1 σ b y node parents M others solo _ down refer awaits last htokens above bound =>
  have hset : Solo i r σ b { y with lastState1 := true, awaitsState2 := true } [] []
      (s.setInsert i { y with lastState1 := true, awaitsState2 := true }) := solo.setInsert rfl
  have hread := (hset.setNextState .s2).asynchRead deferred node
  have hdown : ∀ buffer, Downward cap G r τ σ
      { y with lastState1 := true, awaitsState2 := true, buffer := buffer } node parents M :=
    fun buffer => down.of_eq rfl rfl rfl rfl rfl id
  unfold insertState1
  rw [solo.data]
  dsimp only
  rw [if_neg (by rw [last, awaits]; decide)]
  split
  · next hnone => cases hnone.symm.trans down.nodeRef
  · next x hx =>
      cases hx.symm.trans down.nodeRef
      refine .inr ⟨_, rfl, ?_⟩
      cases deferred with
      | true =>
          exact .reads (m := 0) hread (hdown _) refer htokens above rfl (by simp)
            (.inr ⟨rfl, false, rfl, by simp⟩) bound
      | false =>
          exact .reads (m := 0) hread (hdown _) refer htokens above rfl (by simp)
            (.inr ⟨rfl, true, rfl, fun _ => rfl⟩) (Nat.le_of_succ_le bound)

/-- The way down is given up: nothing on it was changed. -/
theorem Downward.giveUp (down : Downward cap G r τ σ y node parents M)
    (hopt : y.optimistic = true) (solo : Solo i r σ b y [] [] s) (awaits : y.awaitsState2 = false)
    (bound : 10 * M ≤ N) : Active cap G r τ i N (s.enter (.insert i) .s13) .s13 := by
  obtain ⟨n, -, -, hrestart⟩ := down.leads
  obtain ⟨k, hk, hlt⟩ := hrestart hopt
  obtain ⟨stale, hpending, hstale⟩ := down.pending
  refine .s13 (solo.enter .s13) rfl hk ?_ awaits (by omega)
  rw [hpending]
  intro p hp
  rcases List.mem_append.1 hp with hp | hp
  · exact down.copies hopt p hp
  · exact hstale p hp

/-- A way down starts at the root, over the copies that an earlier one left. -/
theorem downward_root (solo : Solo i r σ b y [] [] s) (hnode : y.nodeRef = none)
    (hleaf : y.nextVisitIsLeafNode = decide (σ.depth = 1))
    (leads : Machine.Leads cap G r.key r.value τ n (σ.goto (.down σ.root []))) (hn : n ≤ M)
    (hopt : y.optimistic = true → n + n < M) (stale : Unmodified y.pendingParentNodes) :
    Downward cap G r τ σ (atRoot s i) σ.root [] M := by
  obtain ⟨⟨κ, ht⟩, -⟩ := leads.ok.job
  obtain ⟨lo, hi, hroot, -⟩ := ht.top.mem (List.mem_singleton.2 rfl)
  rw [atRoot_eq solo, if_pos hnode]
  exact {
    leads := ⟨n, leads, hn, fun h => ⟨n, leads, hopt h⟩⟩
    copies := fun _ p hp => absurd hp List.not_mem_nil
    pending := ⟨_, rfl, stale⟩
    nodeRef := rfl
    level := ⟨_, hroot, rfl⟩
    leaf := hleaf.trans (decide_eq_decide.2 (by dsimp only; omega))
    refer := fun _ => rfl }

/-- State 13: again from the root, with write barriers. -/
theorem insertState13_onward (h : Active cap G r τ i N s .s13) :
    Onward cap G r τ i N (caseRank .s13) (insertState13 s i) := by
  cases h with
  | wrote _ _ _ _ landed => exact landed.elim
  | @s13 σ b y n solo _ leads stale awaits bound =>
  have hdepth : s.depth = σ.depth := congrArg Machine.depth solo.machine
  have hset : Solo i r σ b { y with
      lastState1 := false
      optimistic := false
      freeSlotAvailableInParent := false
      referToRoot := false
      nextVisitIsLeafNode := decide (σ.depth = 1)
      currentNodeLevel := σ.depth
      nodeRef := none } [] [] _ := solo.setInsert rfl
  have hsolo := (hset.releaseAllBut 0).enter .s0
  have hdown := downward_root hsolo rfl rfl leads le_rfl (by simp) stale
  unfold insertState13
  rw [solo.data, hdepth]
  exact .inl ⟨_, .s0, rfl, by decide, .s0 hsolo rfl hdown awaits (by simp [Above]) (by simp) bound⟩

/-- State 2 at an inner node that the way goes on from. -/
theorem insertInner_eq (s : State K V) (i : Nat) (hreq : y.request = some r) {x : InnerNode K}
    (hopt : y.optimistic = true → ¬ x.locateChildIndex r.key < 0) {k : K} {child : BlkAddress}
    (hslot : (Alone.Frame.toward r.key x).node.slots[(Alone.Frame.toward r.key x).position]?
      = some (k, child)) :
    insertInner cap s i y x
      = .again ((s.setInsert i (visited cap r.key y x child)).enter (.insert i) .s0) := by
  have hgo : ¬ (decide (x.locateChildIndex r.key < 0) && y.optimistic) = true := by
    rw [Bool.and_eq_true, decide_eq_true_iff]
    exact fun h => hopt h.2 h.1
  have hcopy : (if decide (x.locateChildIndex r.key < 0) = true then x.setFirstKey r.key else x)
      = (Alone.Frame.toward r.key x).node := by
    unfold Alone.Frame.toward
    simp only [decide_eq_true_eq]
  have hpos : (x.locateChildIndex r.key).toNat = (Alone.Frame.toward r.key x).position := rfl
  unfold insertInner
  rw [hreq]
  dsimp only
  rw [if_neg hgo, hcopy, hpos, hslot]
  unfold visited
  rw [hreq]
  rfl

/-- One node further down. -/
theorem Downward.visit (hcap : 2 ≤ cap) (down : Downward cap G r τ σ y node parents M)
    (refer : y.referToRoot = false) {x : InnerNode K}
    (hb : (σ.blocks node).map Block.deserialize = some (.inner x))
    (hopt : y.optimistic = true → ¬ x.locateChildIndex r.key < 0) :
    ∃ k child M', (Alone.Frame.toward r.key x).node.slots[(Alone.Frame.toward r.key x).position]?
        = some (k, child) ∧ M = M' + 1 ∧ (Alone.Frame.toward r.key x).node.selfRep = node
      ∧ Downward cap G r τ σ (visited cap r.key y x child) child
          (Alone.Frame.toward r.key x :: parents) M' := by
  obtain ⟨n, hleads, hn, hrestart⟩ := down.leads
  obtain ⟨k, child, hslot, hself, -⟩ := hleads.ok.visit rfl hb r.key
  obtain ⟨n', rfl, hleads'⟩ := hleads.visit hcap rfl hb hslot
  obtain ⟨M', rfl⟩ : ∃ M', M = M' + 1 := Nat.exists_eq_add_one.2 (by omega)
  obtain ⟨stale, hpending, hstale⟩ := down.pending
  obtain ⟨sp, hsp, hlevel⟩ := down.level
  obtain ⟨sp', sc, hsp', hsc, hlevel'⟩ := hleads.ok.child rfl hb hslot
  cases hsp.symm.trans hsp'
  refine ⟨k, child, M', hslot, rfl, hself, ?_⟩
  exact {
    leads := ⟨n', hleads', by omega, fun h => by
      obtain ⟨k, hk, hlt⟩ := hrestart h
      exact ⟨k, hk, by omega⟩⟩
    copies := fun h p hp => by
      rcases List.mem_cons.1 hp with rfl | hp
      · rw [Alone.Frame.toward_of_nonneg (hopt h)]
        exact (hleads.ok.read rfl hb).2.2.1
      · exact down.copies h p hp
    pending := ⟨stale, congrArg _ hpending, hstale⟩
    nodeRef := rfl
    level := ⟨sc, hsc, by dsimp only [visited]; omega⟩
    leaf := decide_eq_decide.2 (by dsimp only [visited]; omega)
    refer := fun h => by cases refer.symm.trans h }

/-- State 2 at an inner node. -/
theorem insertInner_onward (hcap : 2 ≤ cap) (solo : Solo i r σ b y [] [] s)
    {c : InsertContext K V} (hreq : c.request = y.request)
    (down : Downward cap G r τ σ c node parents M) (refer : c.referToRoot = false)
    (awaits : c.awaitsState2 = false) {others : List BarrierToken} {type : BarrierType}
    (htokens : b.obtainedBarriers = ⟨node, type⟩ :: others) (above : Above others parents)
    {x : InnerNode K} (hb : (σ.blocks node).map Block.deserialize = some (.inner x))
    (bound : 10 * M ≤ N) : Onward cap G r τ i N (caseRank .s2) (insertInner cap s i c x) := by
  have hr : c.request = some r := hreq.trans solo.request
  by_cases hup : (decide (x.locateChildIndex r.key < 0) && c.optimistic) = true
  · have heq : insertInner cap s i c x = .again ((s.setInsert i c).enter (.insert i) .s13) := by
      unfold insertInner
      rw [hr]
      dsimp only
      rw [if_pos hup]
    rw [heq]
    exact .inl ⟨_, .s13, rfl, by decide, down.giveUp (Bool.and_eq_true_iff.1 hup).2
      (solo.setInsert hreq) awaits bound⟩
  · have hopt : c.optimistic = true → ¬ x.locateChildIndex r.key < 0 := fun h hneg =>
      hup (Bool.and_eq_true_iff.2 ⟨decide_eq_true hneg, h⟩)
    obtain ⟨k, child, M', hslot, rfl, hself, hdown⟩ := down.visit hcap refer hb hopt
    have hset : Solo i r σ b (visited cap r.key c x child) [] []
        (s.setInsert i (visited cap r.key c x child)) := solo.setInsert hreq
    have hsolo := hset.enter .s0
    have hroot : Downward cap G r τ σ
        (atRoot ((s.setInsert i (visited cap r.key c x child)).enter (.insert i) .s0) i) child
        (Alone.Frame.toward r.key x :: parents) M' := by
      rw [atRoot_eq hsolo, if_neg (by simp [visited])]
      exact hdown.of_eq rfl rfl rfl rfl rfl id
    -- the token of the node is now one of those above
    have habove : Above b.obtainedBarriers (Alone.Frame.toward r.key x :: parents) := by
      rw [htokens]
      intro t ht
      rcases List.mem_cons.1 ht with rfl | ht
      · exact List.mem_cons.2 (.inl hself.symm)
      · exact List.mem_cons_of_mem _ (above t ht)
    rw [insertInner_eq s i hr hopt hslot]
    exact .inl ⟨_, .s0, rfl, by decide, .s0 hsolo rfl hroot awaits habove
      (fun _ _ => by simp [htokens]) (by omega)⟩

end Down

/-! ## §3. On the way up. -/

section Up

variable [LinearOrder K] {cap : Nat} {G : Plan K BlkAddress} {r : InsertRequest K V}
  {τ σ : Machine K V} {b : CallBackContext} {y : InsertContext K V} {node : BlkAddress}
  {parents : List (Alone.Frame K)} {M N n i : Nat} {s : State K V}
  {B : BlkAddress → Option (Block K V)} {as : List BlkAddress} {st : CtxState}

/-- Writes to `as` were submitted to the store `σ`; with all of them applied the blocks are
`B`. -/
def Submitted (i : Nat) (r : InsertRequest K V) (σ : Machine K V) (b : CallBackContext)
    (y : InsertContext K V) (as : List BlkAddress) (B : BlkAddress → Option (Block K V))
    (s : State K V) : Prop :=
  ∃ σ' ios, Solo i r σ' b y [] ios s ∧ Landing i ios σ'.blocks B
    ∧ { σ' with blocks := B } = { σ with blocks := B } ∧ ios.map PendingIo.address = as

omit [LinearOrder K] in
theorem Solo.submitted (h : Solo i r σ b y [] [] s) : Submitted i r σ b y [] σ.blocks s :=
  ⟨σ, [], h, Landing.nil _, rfl, rfl⟩

omit [LinearOrder K] in
/-- One more write is submitted. -/
theorem Submitted.write (h : Submitted i r σ b y as B s) (deferred : Bool) {a : BlkAddress}
    (ha : a ∉ as) (d : Block K V) :
    Submitted i r σ b y (as ++ [a]) (Function.update B a (some d))
      (s.asynchWrite deferred (.insert i) a d) := by
  obtain ⟨σ', ios, hsolo, hlanding, heq, rfl⟩ := h
  refine ⟨_, _, hsolo.asynchWrite deferred a d, ?_, ?_, List.map_append⟩
  · have hadd := hlanding.add deferred ha d
    cases deferred with
    | true => exact hadd
    | false => exact hadd
  · have hput := congrArg (fun σ : Machine K V =>
      { σ with blocks := Function.update B a (some d) }) heq
    cases deferred with
    | true => exact hput
    | false => exact hput

omit [LinearOrder K] in
theorem Solo.writeOne (h : Solo i r σ b y [] [] s) (deferred : Bool) (a : BlkAddress)
    (d : Block K V) : Submitted i r σ b y [a] (Function.update σ.blocks a (some d))
      (s.asynchWrite deferred (.insert i) a d) :=
  h.submitted.write deferred List.not_mem_nil d

omit [LinearOrder K] in
theorem Solo.writeTwo (h : Solo i r σ b y [] [] s) (deferred : Bool) {a a' : BlkAddress}
    (hne : a' ≠ a) (d d' : Block K V) : Submitted i r σ b y [a, a']
      (Function.update (Function.update σ.blocks a (some d)) a' (some d'))
      ((s.asynchWrite deferred (.insert i) a d).asynchWrite deferred (.insert i) a' d') :=
  (h.writeOne deferred a d).write deferred (List.mem_singleton.not.2 hne) d'

omit [LinearOrder K] in
theorem load_le (ios : List (PendingIo K V)) : load ios 0 ≤ 3 * ios.length := by
  have := List.countP_le_length (l := ios) (p := fun io => !io.applied)
  unfold load
  omega

/-- The context waits for what it submitted. -/
theorem Submitted.parked (h : Submitted i r σ b y as B s) (hnext : b.nextState = some st)
    (landed : Landed cap G r τ { σ with blocks := B } y n st)
    (hcount : y.writeBackCompletionCount = 0) (htarget : y.writeBackCompletionTarget = as.length)
    (hsome : 0 < as.length) (bound : 10 * n + 3 * as.length ≤ N) : Parked cap G r τ i N s := by
  obtain ⟨σ', ios, hsolo, hlanding, heq, rfl⟩ := h
  rw [List.length_map] at htarget hsome bound
  have hload := load_le ios
  exact .writes (m := 0) hsolo hlanding (heq ▸ landed) hnext (by simp) (by omega) (by omega)
    (by omega)

/-- After a split the parent comes next, or a new root. -/
theorem Upward.landed {t : Alone.Split K V} (h : Upward cap G r τ σ y (some t) parents n)
    {root : BlkAddress} (hroot : t.left.selfRep = root ↔ parents = []) {st : CtxState}
    (hst : st = if t.left.selfRep = root then .s12 else .s10) : Landed cap G r τ σ y n st := by
  rw [hst]
  split
  · next heq =>
      cases hroot.1 heq
      exact ⟨t, h⟩
  · next hne => exact ⟨some t, parents, h, fun _ hnil => hne (hroot.2 hnil)⟩

/-- A node in use is not the one that is allocated next. -/
theorem allocated_ne (h : σ.Ok cap G) {sp : Span K} (hG : G node = some sp) :
    node ≠ σ.allocator.next := fun heq =>
  h.used node sp hG (heq ▸ σ.allocator.free_next)

/-- A leaf with room is written, and nothing else. -/
theorem Downward.kept (hcap : 2 ≤ cap) (down : Downward cap G r τ σ y node parents M)
    {leaf left : LeafNode K V} (hb : (σ.blocks node).map Block.deserialize = some (.leaf leaf))
    (hsplit : leaf.insertWithSplitSupport cap r.key r.value σ.allocator.next = (left, none))
    {c : InsertContext K V} (hpending : c.pendingParentNodes = y.pendingParentNodes)
    (hflag : c.childNodeSplit = false) :
    ∃ k, k < M ∧ Landed cap G r τ
      { σ with blocks := Function.update σ.blocks node (some left.serialize) } c k .s10 := by
  obtain ⟨n, hleads, hn, -⟩ := down.leads
  have hself : leaf.selfRep = node := (hleads.ok.read rfl hb).1
  have hflags := LeafNode.insertWithSplitSupport_flags cap leaf r.key r.value σ.allocator.next
  rw [hsplit] at hflags
  obtain rfl : left.selfRep = node := hflags.1.trans hself
  have hs := (Machine.step_leaf (σ := σ.goto (.down left.selfRep parents)) rfl hb).trans
    (congrArg some (Machine.insertLeaf_kept hsplit))
  obtain ⟨k, rfl, hk⟩ := hleads.next hcap hs
  refine ⟨k, hn, none, parents, ⟨hk, ?_, hflag, by simp⟩, by simp⟩
  unfold Pending
  rw [hpending]
  exact down.pending

/-- A full leaf is written with its new right sibling. -/
theorem Downward.cut (hcap : 2 ≤ cap) (down : Downward cap G r τ σ y node parents M)
    {leaf left right : LeafNode K V} {boundary : K}
    (hb : (σ.blocks node).map Block.deserialize = some (.leaf leaf))
    (hsplit : leaf.insertWithSplitSupport cap r.key r.value σ.allocator.next
      = (left, some (right, boundary)))
    {c : InsertContext K V} (hpending : c.pendingParentNodes = y.pendingParentNodes)
    (hflag : c.childNodeSplit = true)
    (hc : c.split = some ⟨.leaf left, .leaf right, boundary⟩) :
    right.selfRep ≠ node ∧ ∃ k, k < M ∧ Landed cap G r τ { σ.allocate with
      blocks := Function.update (Function.update σ.blocks node (some left.serialize)) right.selfRep
        (some right.serialize) } c k (if left.selfRep = σ.root then .s12 else .s10) := by
  obtain ⟨n, hleads, hn, -⟩ := down.leads
  obtain ⟨sp, hsp, -⟩ := down.level
  have hself : leaf.selfRep = node := (hleads.ok.read rfl hb).1
  have hflags := LeafNode.insertWithSplitSupport_flags cap leaf r.key r.value σ.allocator.next
  rw [hsplit] at hflags
  obtain ⟨hleft, -, hright⟩ := hflags
  have hnew : right.selfRep = σ.allocator.next := (hright _ rfl).1
  obtain rfl : left.selfRep = node := hleft.trans hself
  have hs := (Machine.step_leaf (σ := σ.goto (.down left.selfRep parents)) rfl hb).trans
    (congrArg some (Machine.insertLeaf_split hsplit))
  obtain ⟨k, rfl, hk⟩ := hleads.next hcap hs
  refine ⟨hnew ▸ (allocated_ne hleads.ok hsp).symm, k, hn, ?_⟩
  have hup : Upward cap G r τ { σ.allocate with
      blocks := Function.update (Function.update σ.blocks left.selfRep (some left.serialize))
        right.selfRep (some right.serialize) } c (some ⟨.leaf left, .leaf right, boundary⟩)
      parents k := by
    refine ⟨hk, ?_, hflag, fun t ht => ?_⟩
    · unfold Pending
      rw [hpending]
      exact down.pending
    · rw [← Option.some.inj ht]
      exact hc
  exact hup.landed down.under.eq_root_iff rfl

/-- State 2 at a leaf. -/
theorem insertLeaf_onward (hcap : 2 ≤ cap) (solo : Solo i r σ b y [] [] s)
    {c : InsertContext K V} (hreq : c.request = y.request)
    (down : Downward cap G r τ σ c node parents M) (awaits : c.awaitsState2 = false)
    {leaf : LeafNode K V} (hb : (σ.blocks node).map Block.deserialize = some (.leaf leaf))
    (bound : 10 * M ≤ N) (deferred : Bool) :
    Onward cap G r τ i N (caseRank .s2) (insertLeaf cap deferred s i c leaf) := by
  have hr : c.request = some r := hreq.trans solo.request
  have halloc : s.allocator = σ.allocator := congrArg Machine.allocator solo.machine
  have hroot : s.root = σ.root := congrArg Machine.root solo.machine
  unfold insertLeaf
  split
  · next r' x hr' hx =>
      cases hr'.symm.trans hr
      cases hx.symm.trans down.nodeRef
      by_cases hfull : (c.optimistic && decide (leaf.size = cap)) = true
      · rw [if_pos hfull]
        exact .inl ⟨_, .s13, rfl, by decide, down.giveUp (Bool.and_eq_true_iff.1 hfull).1
          (solo.setInsert hreq) awaits bound⟩
      · rw [if_neg hfull, halloc, hroot]
        obtain ⟨⟨left, right⟩, hsplit⟩ :
            ∃ p, leaf.insertWithSplitSupport cap r.key r.value σ.allocator.next = p := ⟨_, rfl⟩
        rw [hsplit]
        cases right with
        | none =>
            obtain ⟨k, hk, hlanded⟩ := down.kept hcap hb hsplit (c := { c with
              childNodeSplit := false
              writeBackCompletionTarget := 1
              writeBackCompletionCount := 0 }) rfl rfl
            have hset : Solo i r σ b { c with
              childNodeSplit := false
              writeBackCompletionTarget := 1
              writeBackCompletionCount := 0 } [] [] (s.setInsert i _) := solo.setInsert hreq
            have hsub := (hset.setNextState .s10).writeOne deferred node left.serialize
            exact .inr ⟨_, rfl, hsub.parked rfl hlanded rfl rfl Nat.one_pos
              (by rw [List.length_singleton]; omega)⟩
        | some pair =>
            obtain ⟨right, boundary⟩ := pair
            obtain ⟨hne, k, hk, hlanded⟩ := down.cut hcap hb hsplit (c := { c with
              childNodeSplit := true
              split := some ⟨.leaf left, .leaf right, boundary⟩
              writeBackCompletionTarget := 2
              writeBackCompletionCount := 0 }) rfl rfl rfl
            have hset : Solo i r σ.allocate b { c with
              childNodeSplit := true
              split := some ⟨.leaf left, .leaf right, boundary⟩
              writeBackCompletionTarget := 2
              writeBackCompletionCount := 0 } [] [] (s.allocate.setInsert i _) :=
              solo.allocate.setInsert hreq
            have hnext := hset.setNextState (if left.selfRep = σ.root then .s12 else .s10)
            have hsub := hnext.writeTwo deferred hne left.serialize right.serialize
            exact .inr ⟨_, rfl, hsub.parked rfl hlanded rfl rfl Nat.two_pos
              (by rw [List.length_cons, List.length_singleton]; omega)⟩
  · next hno => exact (hno _ _ hr down.nodeRef).elim

/-- State 2: at a leaf the context has the write barrier. -/
theorem insertState2_onward (hcap : 2 ≤ cap) (h : Active cap G r τ i N s .s2) (deferred : Bool) :
    Onward cap G r τ i N (caseRank .s2) (insertState2 cap deferred s i) := by
  cases h with
  | wrote _ _ _ _ landed => exact landed.elim
  | @s2 σ b y node parents M others solo _ down refer htokens above buffer bound =>
  obtain ⟨bl, hbl⟩ := down.ok.block rfl
  obtain ⟨x, hx⟩ : ∃ x, bl.deserialize = x := ⟨_, rfl⟩
  have hb : (σ.blocks node).map Block.deserialize = some x := by
    rw [← hx]
    exact congrArg (Option.map Block.deserialize) hbl
  have hbuf : y.buffer.map Block.deserialize = some x := by rw [buffer, hb]
  have hdown : Downward cap G r τ σ { y with lastState1 := false, awaitsState2 := false } node
      parents M := down.of_eq rfl rfl rfl rfl rfl id
  unfold insertState2
  rw [solo.data, solo.context, htokens]
  dsimp only
  rw [hbuf]
  cases x with
  | inner x =>
      exact insertInner_onward (c := { y with lastState1 := false, awaitsState2 := false }) hcap solo
        rfl hdown refer rfl htokens above hb bound
  | leaf leaf =>
      obtain ⟨⟨κ, ht⟩, -⟩ := down.ok.job
      obtain ⟨sp, hsp, hlevel⟩ := down.level
      have hone : y.currentNodeLevel = 1 := by
        rw [hlevel, (ht.leafOk hsp (down.ok.read rfl hb).2.2.2).level]
        rfl
      have hwrite : y.access = .write := by
        unfold InsertContext.access
        rw [down.leaf, hone]
        simp
      dsimp only
      rw [if_neg (not_not_intro hone), if_neg (not_not_intro hwrite)]
      exact insertLeaf_onward (c := { y with lastState1 := false, awaitsState2 := false }) hcap solo
        rfl hdown rfl hb bound deferred

/-- A parent with room takes the new slot, and is written. -/
theorem landed_room (hcap : 2 ≤ cap) {t : Alone.Split K V} {p : Alone.Frame K}
    (leads : Machine.Leads cap G r.key r.value τ n (σ.goto (.up (some t) (p :: parents))))
    (hroom : p.node.size < cap) {x : InnerNode K}
    (hx : p.node.insertInnerNode t.right.selfRep t.boundary (p.position + 1) = x)
    {c : InsertContext K V} (hpending : Pending c parents) (hflag : c.childNodeSplit = false) :
    ∃ k, k < n ∧ Landed cap G r τ
      { σ with blocks := Function.update σ.blocks x.selfRep (some (x.serialize V)) } c k .s10 := by
  subst hx
  have hs : (σ.goto (.up (some t) (p :: parents))).step cap r.key r.value = _ :=
    (Machine.step_split rfl).trans (Machine.addSplit_room hroom)
  obtain ⟨k, rfl, hk⟩ := leads.next hcap hs
  exact ⟨k, Nat.lt_succ_self k, none, parents, ⟨hk, hpending, hflag, by simp⟩, by simp⟩

/-- A full parent is written with its new right sibling. -/
theorem landed_full (hcap : 2 ≤ cap) {t : Alone.Split K V} {p : Alone.Frame K}
    (leads : Machine.Leads cap G r.key r.value τ n (σ.goto (.up (some t) (p :: parents))))
    (hroom : ¬ p.node.size < cap) {left right : InnerNode K} {boundary : K} {a : BlkAddress}
    {rest : List (K × BlkAddress)}
    (hhalves : p.node.splitInsert cap p.position t.right.selfRep t.boundary σ.allocator.next
      = (left, right)) (hslots : right.slots = (boundary, a) :: rest)
    {c : InsertContext K V} (hpending : Pending c parents) (hflag : c.childNodeSplit = true)
    (hc : c.split = some ⟨.inner left, .inner right, boundary⟩) :
    right.selfRep ≠ left.selfRep ∧ ∃ k, k < n ∧ Landed cap G r τ { σ.allocate with
      blocks := Function.update (Function.update σ.blocks left.selfRep (some (left.serialize V)))
        right.selfRep (some (right.serialize V)) } c k
          (if σ.root ≠ left.selfRep then .s10 else .s12) := by
  obtain ⟨⟨node, ⟨⟨sp, sc, hsp, -⟩, hup⟩, -⟩, -⟩ := leads.ok.job
  have hflags := InnerNode.splitInsert_flags cap p.node p.position t.right.selfRep t.boundary
    σ.allocator.next
  rw [hhalves] at hflags
  obtain ⟨hleft, -, hnew, -⟩ := hflags
  have hs : (σ.goto (.up (some t) (p :: parents))).step cap r.key r.value = _ :=
    (Machine.step_split rfl).trans (Machine.addSplit_full hroom hhalves hslots)
  obtain ⟨k, rfl, hk⟩ := leads.next hcap hs
  have hne : right.selfRep ≠ left.selfRep := by
    rw [hnew, hleft]
    exact (allocated_ne leads.ok hsp).symm
  have hupward : Upward cap G r τ { σ.allocate with
      blocks := Function.update (Function.update σ.blocks left.selfRep (some (left.serialize V)))
        right.selfRep (some (right.serialize V)) } c
      (some ⟨.inner left, .inner right, boundary⟩) parents k := by
    refine ⟨hk, hpending, hflag, fun t ht => ?_⟩
    rw [← Option.some.inj ht]
    exact hc
  have hst : (if σ.root ≠ left.selfRep then CtxState.s10 else .s12)
      = if left.selfRep = σ.root then .s12 else .s10 := by
    by_cases heq : left.selfRep = σ.root
    · rw [if_pos heq, if_neg (not_not_intro heq.symm)]
    · rw [if_neg heq, if_pos (Ne.symm heq)]
  have hiff : left.selfRep = σ.root ↔ parents = [] := by
    rw [hleft]
    exact hup.eq_root_iff
  exact ⟨hne, k, Nat.lt_succ_self k, hupward.landed hiff hst⟩

/-- State 9 after a split: the parent takes the new slot, or is split in turn. -/
theorem insertAddSplit_onward (hcap : 2 ≤ cap) (solo : Solo i r σ b y [] [] s)
    {c : InsertContext K V} (hreq : c.request = y.request) {t : Alone.Split K V}
    {p : Alone.Frame K} {stale : List (ParentNodeContext K)} (hstale : Unmodified stale)
    (leads : Machine.Leads cap G r.key r.value τ n (σ.goto (.up (some t) (p :: parents))))
    (hsplit : c.split = some (ofSplit t)) (bound : 10 * n ≤ N) (deferred : Bool) :
    Onward cap G r τ i N (caseRank .s9) (insertAddSplit cap deferred s i c (pending p)
      (parents.map pending ++ stale)) := by
  have halloc : s.allocator = σ.allocator := congrArg Machine.allocator solo.machine
  have hroot : s.root = σ.root := congrArg Machine.root solo.machine
  unfold insertAddSplit
  split
  · next hnone => cases hnone.symm.trans hsplit
  · next t' ht' =>
      cases ht'.symm.trans hsplit
      by_cases hroom : p.node.size < cap
      · rw [if_pos (show (pending p).node.size < cap from hroom)]
        have hset : Solo i r σ b { c with
          pendingParentNodes := parents.map pending ++ stale
          nodeRef := some p.node.selfRep
          childNodeSplit := false
          writeBackCompletionTarget := 1
          writeBackCompletionCount := 0 } [] [] (s.setInsert i _) := solo.setInsert hreq
        obtain ⟨k, hk, hlanded⟩ := landed_room hcap leads hroom rfl (c := { c with
          pendingParentNodes := parents.map pending ++ stale
          nodeRef := some p.node.selfRep
          childNodeSplit := false
          writeBackCompletionTarget := 1
          writeBackCompletionCount := 0 }) ⟨stale, rfl, hstale⟩ rfl
        have hsub := (hset.setNextState .s10).writeOne deferred
          (p.node.insertInnerNode t.right.selfRep t.boundary (p.position + 1)).selfRep
          ((p.node.insertInnerNode t.right.selfRep t.boundary (p.position + 1)).serialize V)
        exact .inr ⟨_, rfl, hsub.parked rfl hlanded rfl rfl Nat.one_pos
          (by rw [List.length_singleton]; omega)⟩
      · rw [if_neg (show ¬ (pending p).node.size < cap from hroom), halloc, hroot]
        obtain ⟨⟨left, right⟩, hhalves⟩ : ∃ h, p.node.splitInsert cap p.position t.right.selfRep
            t.boundary σ.allocator.next = h := ⟨_, rfl⟩
        have hright := (InnerNode.splitInsert_ne_nil hcap
          (le_antisymm (leads.ok.job.2.1 p List.mem_cons_self) (not_lt.1 hroom)) p.position
          t.right.selfRep t.boundary σ.allocator.next).2
        rw [hhalves] at hright
        obtain ⟨⟨boundary, a⟩, rest, hslots⟩ := List.exists_cons_of_ne_nil hright
        have hset : Solo i r σ.allocate b { c with
          pendingParentNodes := parents.map pending ++ stale
          nodeRef := some p.node.selfRep
          childNodeSplit := true
          split := some ⟨.inner left, .inner right, boundary⟩
          writeBackCompletionTarget := 2
          writeBackCompletionCount := 0 } [] [] (s.allocate.setInsert i _) :=
          solo.allocate.setInsert hreq
        obtain ⟨hne, k, hk, hlanded⟩ := landed_full hcap leads hroom hhalves hslots (c := { c with
          pendingParentNodes := parents.map pending ++ stale
          nodeRef := some p.node.selfRep
          childNodeSplit := true
          split := some ⟨.inner left, .inner right, boundary⟩
          writeBackCompletionTarget := 2
          writeBackCompletionCount := 0 }) ⟨stale, rfl, hstale⟩ rfl rfl
        have hnext := hset.setNextState (if σ.root ≠ left.selfRep then .s10 else .s12)
        have hsub := hnext.writeTwo deferred hne (left.serialize V) (right.serialize V)
        have hcode : (pending p).node.splitInsert cap (pending p).position
            (ofSplit t).right.selfRep (ofSplit t).boundaryKey σ.allocator.next = (left, right) :=
          hhalves
        rw [hcode]
        dsimp only
        rw [hslots]
        exact .inr ⟨_, rfl, hsub.parked rfl hlanded rfl rfl Nat.two_pos
          (by rw [List.length_cons, List.length_singleton]; omega)⟩

/-- The loop of state 9: a copy that did not change is passed, as by the machine; those of
the first way down are passed at the end. -/
theorem insertFlush_onward (hcap : 2 ≤ cap) (solo : Solo i r σ b y [] [] s)
    {c : InsertContext K V} (hreq : c.request = y.request) (hflag : c.childNodeSplit = false)
    {stale : List (ParentNodeContext K)} (hstale : Unmodified stale) (deferred : Bool) :
    ∀ {parents : List (Alone.Frame K)} {n : Nat},
      Machine.Leads cap G r.key r.value τ n (σ.goto (.up none parents)) → 10 * n ≤ N →
      Onward cap G r τ i N (caseRank .s9)
        (insertFlush deferred s i c (parents.map pending ++ stale)) := by
  intro parents
  induction parents with
  | nil =>
      intro n leads _
      obtain ⟨k, -, hk⟩ := leads.next hcap (Machine.step_top rfl)
      have hset : Solo i r σ b { c with pendingParentNodes := [] } [] [] (s.setInsert i _) :=
        solo.setInsert hreq
      rw [List.map_nil, List.nil_append, insertFlush_unmodified deferred s i c hstale]
      exact .inl ⟨_, .s11, rfl, by decide, .s11 (hset.enter .s11) rfl (hk.ends.eq_of_done rfl)⟩
  | cons p parents ih =>
      intro n leads bound
      obtain ⟨k, rfl, hk⟩ := leads.next hcap (Machine.step_up rfl)
      rw [List.map_cons, List.cons_append, insertFlush]
      by_cases hmod : p.node.modified = true
      · rw [if_pos (show (pending p).node.modified = true from hmod)]
        rw [if_pos hmod] at hk
        have hset : Solo i r σ b { c with
          pendingParentNodes := parents.map pending ++ stale
          writeBackCompletionTarget := 1
          writeBackCompletionCount := 0 } [] [] (s.setInsert i _) := solo.setInsert hreq
        have hsub := (hset.setNextState .s10).writeOne deferred p.node.selfRep (p.node.serialize V)
        have hup : Upward cap G r τ
            { σ with blocks := Function.update σ.blocks p.node.selfRep (some (p.node.serialize V)) }
            { c with
              pendingParentNodes := parents.map pending ++ stale
              writeBackCompletionTarget := 1
              writeBackCompletionCount := 0 } none parents k :=
          ⟨hk, ⟨stale, rfl, hstale⟩, hflag, by simp⟩
        exact .inr ⟨_, rfl, hsub.parked rfl ⟨none, parents, hup, by simp⟩ rfl rfl Nat.one_pos
          (by rw [List.length_singleton]; omega)⟩
      · rw [if_neg (show ¬ (pending p).node.modified = true from hmod)]
        rw [if_neg hmod] at hk
        exact ih hk (by omega)

theorem insertState9_onward (hcap : 2 ≤ cap) (h : Active cap G r τ i N s .s9) (deferred : Bool) :
    Onward cap G r τ i N (caseRank .s9) (insertState9 cap deferred s i) := by
  cases h with
  | wrote _ _ _ _ landed => exact landed.elim
  | @s9 σ b y split parents n solo _ up below bound =>
  obtain ⟨stale, hpending, hstale⟩ := up.pending
  unfold insertState9
  rw [solo.data]
  dsimp only
  cases split with
  | none =>
      have hflag : y.childNodeSplit = false := up.flag
      rw [if_neg (by rw [hflag]; exact Bool.false_ne_true), hpending]
      exact insertFlush_onward (c := { y with
        lastState1 := false
        pendingParentNodes := parents.map pending ++ stale }) hcap solo rfl hflag hstale deferred
        up.leads bound
  | some t =>
      obtain ⟨p, parents, rfl⟩ := List.exists_cons_of_ne_nil (below (Option.some_ne_none t))
      have hflag : y.childNodeSplit = true := up.flag
      rw [if_pos hflag, hpending]
      exact insertAddSplit_onward (c := { y with
        lastState1 := false
        pendingParentNodes := (p :: parents).map pending ++ stale }) hcap solo rfl hstale up.leads
        (up.split t rfl) bound deferred

theorem Upward.of_eq {split : Option (Alone.Split K V)} {c : InsertContext K V}
    (h : Upward cap G r τ σ y split parents n)
    (hpending : c.pendingParentNodes = y.pendingParentNodes)
    (hflag : c.childNodeSplit = y.childNodeSplit) (hsplit : c.split = y.split) :
    Upward cap G r τ σ c split parents n where
  leads := h.leads
  pending := by
    unfold Pending
    rw [hpending]
    exact h.pending
  flag := hflag.trans h.flag
  split := fun t ht => hsplit.trans (h.split t ht)

/-- The fields that the way up does not look at. -/
theorem Landed.of_eq {c : InsertContext K V} (h : Landed cap G r τ σ y n st)
    (hpending : c.pendingParentNodes = y.pendingParentNodes)
    (hflag : c.childNodeSplit = y.childNodeSplit) (hsplit : c.split = y.split)
    (htarget : c.writeBackCompletionTarget = y.writeBackCompletionTarget) :
    Landed cap G r τ σ c n st := by
  cases st with
  | s10 =>
      obtain ⟨split, parents, hup, hbelow⟩ := h
      exact ⟨split, parents, hup.of_eq hpending hflag hsplit, hbelow⟩
  | s12 =>
      obtain ⟨t, hup⟩ := h
      exact ⟨t, hup.of_eq hpending hflag hsplit⟩
  | s11 => exact ⟨h.1, htarget.trans h.2⟩
  | s0 => exact h
  | s10001 => exact h
  | s1 => exact h
  | s2 => exact h
  | s9 => exact h
  | s13 => exact h

/-- **The count of states 10 and 12**: the last write leads on, before it the context waits. -/
theorem Active.counted (h : Active cap G r τ i N s st) (hst : st = .s10 ∨ st = .s12) :
    ((s.inserts i).writeBackCompletionCount + 1 = (s.inserts i).writeBackCompletionTarget →
        ∃ σ b n, Solo i r σ b (s.inserts i) [] [] s ∧ Landed cap G r τ σ (s.inserts i) n st
          ∧ 10 * n ≤ N)
      ∧ ((s.inserts i).writeBackCompletionCount + 1 ≠ (s.inserts i).writeBackCompletionTarget →
        Parked cap G r τ i N (s.setInsert i { s.inserts i with
          lastState1 := false
          writeBackCompletionCount := (s.inserts i).writeBackCompletionCount + 1 })) := by
  cases h with
  | @wrote σ b y st B n m ios solo state next landing landed ne count bound =>
      rw [solo.data]
      constructor
      · intro hlast
        obtain rfl : m = 0 := by omega
        obtain rfl : ios = [] := List.eq_nil_of_length_eq_zero (by omega)
        rw [← landing.eq] at landed
        exact ⟨σ, b, n, solo, landed, by omega⟩
      · intro hmore
        have hset : Solo i r σ b { y with
          lastState1 := false
          writeBackCompletionCount := y.writeBackCompletionCount + 1 }
          (List.replicate m (.insert i)) ios (s.setInsert i _) := solo.setInsert rfl
        exact .writes hset landing (landed.of_eq rfl rfl rfl rfl) next (fun _ => state) count
          (by omega) bound
  | _ => simp at hst

theorem insertState10_onward (h : Active cap G r τ i N s .s10) :
    Onward cap G r τ i N (caseRank .s10) (insertState10 s i) := by
  obtain ⟨hlast, hmore⟩ := h.counted (.inl rfl)
  unfold insertState10
  dsimp only
  split
  · next heq =>
      obtain ⟨σ, b, n, hsolo, ⟨split, parents, hup, hbelow⟩, hbound⟩ := hlast heq
      have hset : Solo i r σ b { s.inserts i with
        lastState1 := false
        writeBackCompletionCount := (s.inserts i).writeBackCompletionCount + 1 } [] []
        (s.setInsert i _) := hsolo.setInsert rfl
      exact .inl ⟨_, .s9, rfl, by decide, .s9 (hset.enter .s9) rfl (hup.of_eq rfl rfl rfl) hbelow
        hbound⟩
  · next hne => exact .inr ⟨_, rfl, hmore hne⟩

/-- The end of state 12: the new root is written last. -/
theorem insertNewRoot_onward (hcap : 2 ≤ cap) (solo : Solo i r σ b y [] [] s)
    {c : InsertContext K V} (hreq : c.request = y.request) {t : Alone.Split K V}
    (leads : Machine.Leads cap G r.key r.value τ n (σ.goto (.up (some t) []))) {kl kr : K}
    (hkl : t.left.getLeftmostKey = some kl) (hkr : t.right.getLeftmostKey = some kr)
    (bound : 10 * n ≤ N) (deferred : Bool) :
    Onward cap G r τ i N (caseRank .s12) (insertNewRoot deferred s i c (ofSplit t) kl kr) := by
  have halloc : s.allocator = σ.allocator := congrArg Machine.allocator solo.machine
  have hs : (σ.goto (.up (some t) [])).step cap r.key r.value = _ :=
    (Machine.step_root rfl).trans (Machine.newRoot_eq hkl hkr)
  obtain ⟨k, rfl, hk⟩ := leads.next hcap hs
  have hend := hk.ends.eq_of_done rfl
  obtain ⟨x, hx⟩ : ∃ x, (InnerNode.ofChildren σ.allocator.next (kl, t.left.selfRep)
    (kr, t.right.selfRep)).markModified = x := ⟨_, rfl⟩
  have hset : Solo i r { σ.allocate with root := x.selfRep, depth := σ.depth + 1 } b { c with
    writeBackCompletionCount := 0
    writeBackCompletionTarget := 1
    childNodeSplit := false } [] [] (State.setInsert _ i _) := (solo.setRoot x).setInsert hreq
  have hsub := (hset.setNextState .s11).writeOne deferred x.selfRep (x.serialize V)
  have hcode : (InnerNode.ofChildren s.allocator.next (kl, (ofSplit t).left.selfRep)
      (kr, (ofSplit t).right.selfRep)).markModified = x := by
    rw [halloc]
    exact hx
  unfold insertNewRoot
  dsimp only
  rw [hcode]
  refine .inr ⟨_, rfl, hsub.parked (n := k) rfl ⟨?_, rfl⟩ rfl rfl Nat.one_pos
    (by rw [List.length_singleton]; omega)⟩
  rw [hend]
  subst hx
  rfl

theorem insertState12_onward (hcap : 2 ≤ cap) (h : Active cap G r τ i N s .s12) (deferred : Bool) :
    Onward cap G r τ i N (caseRank .s12) (insertState12 deferred s i) := by
  obtain ⟨hlast, hmore⟩ := h.counted (.inr rfl)
  unfold insertState12
  dsimp only
  split
  · next heq =>
      obtain ⟨σ, b, n, hsolo, ⟨t, hup⟩, hbound⟩ := hlast heq
      obtain ⟨-, -, hkeys⟩ := hup.leads.ok.job
      obtain ⟨hl, hr⟩ := hkeys t rfl
      obtain ⟨kl, hkl⟩ := Option.ne_none_iff_exists'.1 hl
      obtain ⟨kr, hkr⟩ := Option.ne_none_iff_exists'.1 hr
      have hl' : (ofSplit t).left.getLeftmostKey = some kl := hkl
      have hr' : (ofSplit t).right.getLeftmostKey = some kr := hkr
      rw [hup.split t rfl]
      dsimp only
      rw [hl', hr']
      exact insertNewRoot_onward (c := { s.inserts i with
        lastState1 := false
        split := some (ofSplit t)
        writeBackCompletionCount := (s.inserts i).writeBackCompletionCount + 1 }) hcap hsolo rfl
        hup.leads hkl hkr hbound deferred
  · next hne => exact .inr ⟨_, rfl, hmore hne⟩

/-- State 11: the request is served, and the context has nothing left. -/
theorem insertState11_onward (h : Active cap G r τ i N s .s11) :
    Onward cap G r τ i N (caseRank .s11) (insertState11 s i) := by
  cases h with
  | wrote _ _ _ _ _ ne => exact absurd rfl ne
  | @s11 σ b y solo _ ends =>
  obtain ⟨request, hrequest⟩ : ∃ q, (if r.ownership then none else some r) = q := ⟨_, rfl⟩
  have hquiet := (solo.toQuiet.setInsert { y with
    lastState1 := false
    request := request }).releaseAllBut 0
  have hjob : σ = σ.goto .done := by
    rw [← solo.machine]
    rfl
  have heq : insertState11 s i = .stop { ((s.setInsert i { y with
      lastState1 := false
      request := request }).releaseAllBut (.insert i) 0).graduate r.id r.cbF r.semaphore
        (.finishInsert r.id) with freeInsertContexts := i :: (((s.setInsert i { y with
          lastState1 := false
          request := request }).releaseAllBut (.insert i) 0).graduate r.id r.cbF r.semaphore
            (.finishInsert r.id)).freeInsertContexts } := by
    unfold insertState11
    rw [solo.data]
    dsimp only
    rw [solo.request]
    dsimp only
    rw [hrequest]
  rw [heq]
  exact .inr ⟨_, rfl, .served (by simp [State.graduate, State.addLog])
    (hquiet.machine.trans (hjob.trans ends.symm)) hquiet.submitting hquiet.queue hquiet.admission
    hquiet.barrierReady hquiet.blkReady hquiet.pendingIo⟩

end Up

/-! ## §4. An activation. -/

section Steps

variable [LinearOrder K] {cap : Nat} {G : Plan K BlkAddress} {r : InsertRequest K V}
  {τ : Machine K V} {N i : Nat} {s s' : State K V} {st : CtxState}

omit [LinearOrder K] in
theorem Solo.currentState {σ : Machine K V} {b : CallBackContext} {y : InsertContext K V}
    {ready : List ContextId} {ios : List (PendingIo K V)} (h : Solo i r σ b y ready ios s)
    (hb : b.currentState = st) : (s.contexts (.insert i)).currentState = st := by
  rw [h.context]
  exact hb

theorem Active.currentState (h : Active cap G r τ i N s st) :
    (s.contexts (.insert i)).currentState = st := by
  cases h with
  | s0 solo state => exact solo.currentState state
  | s10001 solo state => exact solo.currentState state
  | s1 solo state => exact solo.currentState state
  | s2 solo state => exact solo.currentState state
  | s13 solo state => exact solo.currentState state
  | s9 solo state => exact solo.currentState state
  | wrote solo state => exact solo.currentState state
  | s11 solo state => exact solo.currentState state

/-- **One `case` of `run`** goes on inside of the activation, or comes to a wait. -/
theorem insertCase_onward (hcap : 2 ≤ cap) (h : Active cap G r τ i N s st) (deferred : Bool) :
    Onward cap G r τ i N (caseRank st) (insertCase cap deferred s i) := by
  unfold insertCase
  rw [h.currentState]
  cases st with
  | s0 => exact insertState0_onward h
  | s10001 => exact insertState10001_onward h
  | s1 => exact insertState1_onward h deferred
  | s2 => exact insertState2_onward hcap h deferred
  | s9 => exact insertState9_onward hcap h deferred
  | s10 => exact insertState10_onward h
  | s11 => exact insertState11_onward h
  | s12 => exact insertState12_onward hcap h deferred
  | s13 => exact insertState13_onward h

/-- An activation comes to a wait, by induction on the calls of `run`. -/
theorem runContext_parked (hcap : 2 ≤ cap) (deferred : Bool) :
    ∀ {fuel : Nat} {s : State K V} {st : CtxState}, Active cap G r τ i N s st →
      caseRank st < fuel → ∃ s', runContext cap deferred (.insert i) fuel s = .ok s'
        ∧ Parked cap G r τ i N s' := by
  intro fuel
  induction fuel with
  | zero => exact fun _ hlt => absurd hlt (Nat.not_lt_zero _)
  | succ fuel ih =>
      intro s st h hlt
      rw [runContext, ctxCase]
      rcases insertCase_onward hcap h deferred with ⟨s₁, st₁, heq, hrank, h₁⟩ | ⟨s₁, heq, h₁⟩
      · rw [heq]
        exact ih h₁ (by omega)
      · rw [heq]
        exact ⟨s₁, rfl, h₁⟩

theorem caseRank_lt (st : CtxState) : caseRank st < runFuel := by
  cases st <;> decide

end Steps

end PullBasedBPlusTree

end NvmTree
