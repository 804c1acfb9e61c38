/-
  NvmTree.Pull.Know — what each context knows about the tree.

  The contexts are the agents of a shared tree (`World`): a context holds the nodes
  it has tokens of, and in write mode also the blocks it has allocated and not linked
  yet.  For each phase and state, `SearchKnow` and `InsertKnow` give what a context
  knows; it is stable under the steps of the others.

    * An insert on its way down has an `Aim`, the node it waits for, and is then
      `Entered`.  A pessimistic one keeps the parents it holds (`Live`); the parents
      below them on the stack, of an earlier pass or of tokens already given back,
      are unmodified.
    * On its way up (`Climb`) every token is that of a parent still to be flushed,
      or of a node that shows the tree.
    * A root that was cut has no parent yet (`Grow`).

  A search that waited for a root while the root was replaced is `lost`: it still
  reads nodes of the tree, but not those responsible for its key.
-/
import NvmTree.Pull.Conserve
import NvmTree.RangeTree.Descent

namespace NvmTree

open RangeTree

namespace PullBasedBPlusTree

variable {K V : Type*}

/-! ## §1. The state as a world. -/

/-- The type of the token of `x`. -/
def tokenMode (tokens : List BarrierToken) (x : BlkAddress) : Option Mode :=
  (tokens.find? (fun t => t.barrierId = x)).map BarrierToken.type

theorem mem_of_tokenMode {tokens : List BarrierToken} {x : BlkAddress} {type : Mode}
    (h : tokenMode tokens x = some type) : ⟨x, type⟩ ∈ tokens := by
  obtain ⟨t, ht, rfl⟩ := Option.map_eq_some_iff.1 h
  have hx : t.barrierId = x := by simpa using List.find?_some ht
  have hm := List.mem_of_find?_eq_some ht
  rw [← hx]
  exact hm

/-- With one token for each node, the tokens are the modes. -/
theorem tokenMode_of_mem {tokens : List BarrierToken} {x : BlkAddress} {type : Mode}
    (hnd : (tokens.map BarrierToken.barrierId).Nodup) (h : ⟨x, type⟩ ∈ tokens) :
    tokenMode tokens x = some type := by
  cases hf : tokenMode tokens x with
  | none =>
      have hnone := Option.map_eq_none_iff.1 hf
      have := List.find?_eq_none.1 hnone _ h
      simp at this
  | some type' =>
      have hm := mem_of_tokenMode hf
      have he : (⟨x, type'⟩ : BarrierToken) = ⟨x, type⟩ :=
        List.inj_on_of_nodup_map hnd hm h rfl
      cases he
      rfl

namespace State

/-- What the blocks contain. -/
def raw (s : State K V) : Store K V BlkAddress := fun a => (s.blocks a).map Block.shape

/-- What context `c` holds: its tokens, and blocks nobody else can know. -/
def mode (s : State K V) (fr : ContextId → List BlkAddress) (c : ContextId) (x : BlkAddress) :
    Option Mode :=
  if x ∈ fr c then some .write else tokenMode (s.held c) x

def world (s : State K V) (fr : ContextId → List BlkAddress) (E : Store K V BlkAddress)
    (G : Plan K BlkAddress) : World ContextId K V BlkAddress :=
  ⟨s.raw, E, G, s.root, s.depth, s.mode fr⟩

end State

/-- The parent as a copy of its row. -/
def ParentNodeContext.copy (p : ParentNodeContext K) : World.Frame K BlkAddress :=
  ⟨p.node.selfRep, p.node.slots, p.position, p.node.modified⟩

def ParentNodeContext.token (p : ParentNodeContext K) : BarrierToken := ⟨p.node.selfRep, .write⟩

/-! ## §2. An insert on its way down. -/

def Unmodified (ps : List (ParentNodeContext K)) : Prop := ∀ p ∈ ps, p.node.modified = false

/-- Parents that are not modified are skipped. -/
theorem insertFlush_unmodified (deferred : Bool) (s : State K V) (i : Nat)
    (x : InsertContext K V) :
    ∀ {ps : List (ParentNodeContext K)}, Unmodified ps → insertFlush deferred s i x ps
      = .again ((s.setInsert i { x with pendingParentNodes := [] }).enter (.insert i) .s11) := by
  intro ps
  induction ps with
  | nil => exact fun _ => rfl
  | cons p ps ih =>
      intro h
      have hp : p.node.modified = false := h p List.mem_cons_self
      rw [insertFlush, if_neg (by simp [hp])]
      exact ih (fun p' hp' => h p' (List.mem_cons_of_mem _ hp'))

/-- A parent is modified only if the ones below it are. -/
def ModifiedDown (ps : List (ParentNodeContext K)) : Prop :=
  ps.Pairwise (fun p q => q.node.modified = true → p.node.modified = true)

/-- The context is new or queued. -/
def Phase.waits : Phase → Bool
  | .new => true
  | .queued _ _ => true
  | _ => false

section Know

variable [LinearOrder K] (cap : Nat) (w : World ContextId K V BlkAddress) (c : ContextId) (key : K)
  (x : InsertContext K V)

/-- The tree has inner nodes. -/
def Tall : Prop := ∃ a l, w.LevelIs a l ∧ 2 ≤ l

/-- No node is chosen yet. -/
structure Begin (tokens : List BarrierToken) : Prop where
  nodeRef : x.nodeRef = none
  tokens : tokens = []
  free : x.optimistic = false → x.freeSlotAvailableInParent = false
  stale : Unmodified x.pendingParentNodes
  leaf : x.nextVisitIsLeafNode = false → Tall w

/-- The parents on the stack that are still held lead to `node`. -/
structure Live (live : List (ParentNodeContext K)) (node : BlkAddress) : Prop where
  pending : ∃ stale, x.pendingParentNodes = live ++ stale ∧ Unmodified stale
  path : w.Path c key cap none (live.map ParentNodeContext.copy) node
  down : ModifiedDown live
  low : ∀ p ∈ live.head?, p.node.modified = true → w.BelowSlots key node

/-- How the context got to its node. -/
inductive Way : List BarrierToken → BlkAddress → Prop
  | root {node : BlkAddress} (refer : x.referToRoot = true)
      (free : x.optimistic = false → x.freeSlotAvailableInParent = false)
      (stale : Unmodified x.pendingParentNodes) : Way [] node
  | optimistic {p node : BlkAddress} {type : Mode} (refer : x.referToRoot = false)
      (opt : x.optimistic = true) (at_node : w.At c node key) (clean : w.Clean c p)
      (stale : Unmodified x.pendingParentNodes) : Way [⟨p, type⟩] node
  | pessimistic {p : ParentNodeContext K} {ps : List (ParentNodeContext K)} {node : BlkAddress}
      (refer : x.referToRoot = false) (opt : x.optimistic = false) (at_node : w.At c node key)
      (live : Live cap w c key x (p :: ps) node)
      (free : x.freeSlotAvailableInParent = p.node.hasFreeSlot cap)
      (boundary : x.parentBoundaryUpdate = p.node.modified) :
      Way ((p :: ps).map ParentNodeContext.token) node

/-- The tokens are of nodes above level `l`. -/
def TokensAbove (tokens : List BarrierToken) (l : Nat) : Prop :=
  ∀ t ∈ tokens, ∃ l', w.LevelIs t.barrierId l' ∧ l < l'

/-- The node the context waits for. -/
structure Aim (tokens : List BarrierToken) (node : BlkAddress) : Prop where
  level : ∃ l : Nat, w.LevelIs node l ∧ x.currentNodeLevel = l
    ∧ (x.nextVisitIsLeafNode = false → 2 ≤ l) ∧ TokensAbove w tokens l
  way : Way cap w c key x tokens node

/-- The context has got the barrier of its node, and state 10001 comes next. -/
structure AtBarrier (tokens : List BarrierToken) (node : BlkAddress) : Prop where
  clean : w.Clean c node
  aim : ∃ others, tokens = ⟨node, x.access⟩ :: others ∧ Aim cap w c key x others node

/-- The context is at the node responsible for its key. -/
structure Entered (tokens : List BarrierToken) (node : BlkAddress) : Prop where
  refer : x.referToRoot = false
  at_node : w.At c node key
  clean : w.Clean c node
  level : ∃ l : Nat, w.LevelIs node l ∧ x.currentNodeLevel = l
  way : (x.optimistic = true ∧ Unmodified x.pendingParentNodes
      ∧ ∃ type, tokens = [⟨node, type⟩] ∧ (x.currentNodeLevel = 1 → type = .write))
    ∨ (x.optimistic = false ∧ ∃ live, tokens = ⟨node, .write⟩ :: live.map ParentNodeContext.token
      ∧ Live cap w c key x live node)

/-- The block is that of `node`, as it is in the tree. -/
structure Shows (node : BlkAddress) (b : Block K V) : Prop where
  self : b.selfRep = node
  size : b.deserialize.size ≤ cap
  shape : w.E node = some b.shape

/-! ## §3. An insert on its way up. -/

/-- A token is of a parent to be flushed, or of a node that shows the tree. -/
def Settled (tokens : List BarrierToken) (nodes : List BlkAddress) : Prop :=
  ∀ t ∈ tokens, t.barrierId ∈ nodes ∨ w.Clean c t.barrierId

/-- What is left of the way up, with the split of the node below if there was one. -/
structure Climb (tokens : List BarrierToken) : Prop where
  parents : ∃ live stale, x.pendingParentNodes = live ++ stale ∧ Unmodified stale
    ∧ Settled w c tokens (live.map fun p => p.node.selfRep)
    ∧ (x.childNodeSplit = false →
        live = [] ∨ ∃ node, w.Path c key cap none (live.map ParentNodeContext.copy) node)
    ∧ (x.childNodeSplit = true → ∃ split node, x.split = some split ∧ live ≠ []
        ∧ w.Path c key cap (some (split.boundaryKey, split.right.selfRep))
            (live.map ParentNodeContext.copy) node)

/-- The root is cut, and has no parent yet. -/
structure Grow (tokens : List BarrierToken) (fr : List BlkAddress) : Prop where
  split : ∃ split, x.split = some split ∧ fr = [split.right.selfRep]
    ∧ split.left.selfRep = w.root
    ∧ w.Cut c w.root split.right.selfRep split.boundaryKey split.left.shape split.right.shape
    ∧ w.raw w.root = some split.left.shape ∧ w.raw split.right.selfRep = some split.right.shape
  settled : Settled w c tokens [w.root]

/-! ## §4. What a waiting context knows. -/

/-- The insert has not taken effect. -/
structure Before (done : Prop) (fr : List BlkAddress) : Prop where
  notDone : ¬ done
  fr : fr = []
  awaits : x.awaitsState2 = false

/-- The insert has taken effect, and no new node waits for its parent. -/
structure After (done : Prop) (fr : List BlkAddress) : Prop where
  done : done
  fr : fr = []
  awaits : x.awaitsState2 = false

/-- The node was read. -/
def Reading (tokens : List BarrierToken) : Prop :=
  ∃ node b, x.nodeRef = some node ∧ Entered cap w c key x tokens node ∧ x.buffer = some b
    ∧ Shows cap w node b

/-- What an insert knows that waits for I/O, by the state that comes next. -/
def InsertWait (done : Prop) (tokens : List BarrierToken) (fr : List BlkAddress) :
    CtxState → Prop
  | .s2 => (¬ done ∧ fr = []) ∧ Reading cap w c key x tokens
  | .s10 => After x done fr ∧ Climb cap w c key x tokens
  | .s12 => (done ∧ x.awaitsState2 = false) ∧ Grow w c x tokens fr
  | .s11 => After x done fr ∧ Settled w c tokens []
  | _ => False

def InsertKnow (done : Prop) (b : CallBackContext) (fr : List BlkAddress) : Phase → Prop
  | .free => fr = [] ∧ x.awaitsState2 = false
  | .new => Before x done fr ∧ Begin w x b.obtainedBarriers
  | .queued node type => Before x done fr ∧ type = x.access
      ∧ Aim cap w c key x b.obtainedBarriers node
  | .granted => Before x done fr ∧ ∃ node, x.nodeRef = some node
      ∧ AtBarrier cap w c key x b.obtainedBarriers node
  | .io _ => ∃ st, b.nextState = some st ∧ InsertWait cap w c key x done b.obtainedBarriers fr st

/-- What an insert knows that is running. -/
def InsertRuns (done : Prop) (tokens : List BarrierToken) (fr : List BlkAddress) :
    CtxState → Prop
  | .s0 => Before x done fr ∧ (Begin w x tokens ∨ ∃ node, x.nodeRef = some node
      ∧ x.referToRoot = false ∧ Aim cap w c key x tokens node)
  | .s10001 => Before x done fr ∧ ∃ node, x.nodeRef = some node
      ∧ AtBarrier cap w c key x tokens node
  | .s1 => Before x done fr ∧ x.lastState1 = false ∧ ∃ node, x.nodeRef = some node
      ∧ Entered cap w c key x tokens node
  | .s13 => Before x done fr ∧ Settled w c tokens [] ∧ Unmodified x.pendingParentNodes
  | .s9 => After x done fr ∧ Climb cap w c key x tokens
  | st => InsertWait cap w c key x done tokens fr st

/-- The node a search waits for. -/
structure SearchAim (lost : Prop) (tokens : List BarrierToken) (node : BlkAddress) : Prop where
  level : ∃ l, w.LevelIs node l ∧ TokensAbove w tokens l
  length : tokens.length ≤ 1
  way : ¬ lost → (tokens = [] ∧ node = w.root) ∨ w.At c node key

/-- The search has got the barrier of its node. -/
structure SearchAt (lost : Prop) (tokens others : List BarrierToken) (node : BlkAddress) :
    Prop where
  tokens : tokens = ⟨node, .read⟩ :: others
  knows : w.Knows node
  held : w.Held c node
  way : ¬ lost → w.At c node key

/-- What a search knows that is running. -/
def SearchRuns (y : SearchContext K V) (lost : Prop) (tokens : List BarrierToken) :
    CtxState → Prop
  | .s0 => SearchAim w c key lost tokens y.nodeRef
  | .s1 => ∃ others, others.length ≤ 1 ∧ SearchAt w c key lost tokens others y.nodeRef
  | .s2 => SearchAt w c key lost tokens [] y.nodeRef
      ∧ ∃ b, y.buffer = some b ∧ Shows cap w y.nodeRef b
  | _ => False

def SearchKnow (y : SearchContext K V) (lost : Prop) (b : CallBackContext) : Phase → Prop
  | .free => True
  | .new => SearchRuns cap w c key y lost b.obtainedBarriers .s0
  | .queued _ _ => SearchRuns cap w c key y lost b.obtainedBarriers .s0
  | .granted => SearchRuns cap w c key y lost b.obtainedBarriers .s1
  | .io _ => SearchRuns cap w c key y lost b.obtainedBarriers .s2

end Know

/-! ## §5. The data that matters. -/

/-- Equal but for the request, the buffer, the counters and the flags of state 1. -/
structure InsertContext.Alike (x x' : InsertContext K V) : Prop where
  nodeRef : x'.nodeRef = x.nodeRef
  pending : x'.pendingParentNodes = x.pendingParentNodes
  childNodeSplit : x'.childNodeSplit = x.childNodeSplit
  split : x'.split = x.split
  free : x'.freeSlotAvailableInParent = x.freeSlotAvailableInParent
  boundary : x'.parentBoundaryUpdate = x.parentBoundaryUpdate
  refer : x'.referToRoot = x.referToRoot
  optimistic : x'.optimistic = x.optimistic
  leaf : x'.nextVisitIsLeafNode = x.nextVisitIsLeafNode
  level : x'.currentNodeLevel = x.currentNodeLevel

section Alike

variable [LinearOrder K] {cap : Nat} {w : World ContextId K V BlkAddress} {c : ContextId}
  {key : K} {x x' : InsertContext K V} {tokens : List BarrierToken} {node : BlkAddress}

theorem Live.congr {live : List (ParentNodeContext K)} (h : Live cap w c key x live node)
    (hp : x'.pendingParentNodes = x.pendingParentNodes) : Live cap w c key x' live node := by
  obtain ⟨h1, h2, h3, h4⟩ := h
  rw [← hp] at h1
  exact ⟨h1, h2, h3, h4⟩

theorem Way.alike (h : Way cap w c key x tokens node) (ha : x.Alike x') :
    Way cap w c key x' tokens node := by
  cases h with
  | root refer free stale =>
      rw [← ha.refer] at refer
      rw [← ha.optimistic, ← ha.free] at free
      rw [← ha.pending] at stale
      exact .root refer free stale
  | optimistic refer opt at_node clean stale =>
      rw [← ha.refer] at refer
      rw [← ha.optimistic] at opt
      rw [← ha.pending] at stale
      exact .optimistic refer opt at_node clean stale
  | pessimistic refer opt at_node live free boundary =>
      rw [← ha.refer] at refer
      rw [← ha.optimistic] at opt
      rw [← ha.free] at free
      rw [← ha.boundary] at boundary
      exact .pessimistic refer opt at_node (live.congr ha.pending) free boundary

theorem Aim.alike (h : Aim cap w c key x tokens node) (ha : x.Alike x') :
    Aim cap w c key x' tokens node := by
  obtain ⟨h1, h2⟩ := h
  rw [← ha.level, ← ha.leaf] at h1
  exact ⟨h1, h2.alike ha⟩

theorem Entered.alike (h : Entered cap w c key x tokens node) (ha : x.Alike x') :
    Entered cap w c key x' tokens node := by
  obtain ⟨h1, h2, h3, h4, h5⟩ := h
  rw [← ha.refer] at h1
  rw [← ha.level] at h4
  refine ⟨h1, h2, h3, h4, ?_⟩
  rcases h5 with ⟨hopt, hstale, htokens⟩ | ⟨hopt, live, htokens, hlive⟩
  · rw [← ha.optimistic] at hopt
    rw [← ha.pending] at hstale
    rw [← ha.level] at htokens
    exact .inl ⟨hopt, hstale, htokens⟩
  · rw [← ha.optimistic] at hopt
    exact .inr ⟨hopt, live, htokens, hlive.congr ha.pending⟩

theorem Climb.alike (h : Climb cap w c key x tokens) (ha : x.Alike x') :
    Climb cap w c key x' tokens := by
  obtain ⟨h⟩ := h
  rw [← ha.pending, ← ha.childNodeSplit, ← ha.split] at h
  exact ⟨h⟩

omit [LinearOrder K] in
theorem Grow.alike {fr : List BlkAddress} (h : Grow w c x tokens fr) (ha : x.Alike x') :
    Grow w c x' tokens fr := by
  obtain ⟨h1, h2⟩ := h
  rw [← ha.split] at h1
  exact ⟨h1, h2⟩

end Alike

/-! ## §6. What is known stays so. -/

section Stable

variable [LinearOrder K] {cap : Nat} {w w' : World ContextId K V BlkAddress} {c j : ContextId}
  {key : K} {x : InsertContext K V} {m m' : K → Option V} {tokens : List BarrierToken}
  {node : BlkAddress}

theorem Tall.stable (hg : World.Guar j w w') (h : Tall w) : Tall w' := by
  obtain ⟨a, l, ha, hl⟩ := h
  exact ⟨a, l, ha.stable hg, hl⟩

theorem Begin.stable (hg : World.Guar j w w') (h : Begin w x tokens) : Begin w' x tokens :=
  ⟨h.nodeRef, h.tokens, h.free, h.stale, fun hl => (h.leaf hl).stable hg⟩

theorem Live.stable {live : List (ParentNodeContext K)} (hw : w.Ok m) (hg : World.Guar j w w')
    (hcj : c ≠ j) (h : Live cap w c key x live node) : Live cap w' c key x live node := by
  refine ⟨h.pending, h.path.stable hw hg hcj, h.down, fun p hp hm => ?_⟩
  cases live with
  | nil => cases hp
  | cons p' live =>
      obtain rfl : p' = p := Option.some.inj hp
      have hf := h.path.1
      exact (h.low p' hp hm).stable hw hg hcj hf.parent hf.writes.held

theorem Way.stable (hw : w.Ok m) (hw' : w'.Ok m') (hg : World.Guar j w w') (hcj : c ≠ j)
    (h : Way cap w c key x tokens node) : Way cap w' c key x tokens node := by
  cases h with
  | root refer free stale => exact .root refer free stale
  | optimistic refer opt at_node clean stale =>
      exact .optimistic refer opt (at_node.stable hw hw' hg hcj) (clean.stable hw hg hcj) stale
  | pessimistic refer opt at_node live free boundary =>
      exact .pessimistic refer opt (at_node.stable hw hw' hg hcj) (live.stable hw hg hcj) free
        boundary

theorem TokensAbove.stable {l : Nat} (hg : World.Guar j w w') (h : TokensAbove w tokens l) :
    TokensAbove w' tokens l := by
  intro t ht
  obtain ⟨l', hl', hlt⟩ := h t ht
  exact ⟨l', hl'.stable hg, hlt⟩

theorem Aim.stable (hw : w.Ok m) (hw' : w'.Ok m') (hg : World.Guar j w w') (hcj : c ≠ j)
    (h : Aim cap w c key x tokens node) : Aim cap w' c key x tokens node := by
  obtain ⟨l, hl, hlevel, hleaf, habove⟩ := h.level
  exact ⟨⟨l, hl.stable hg, hlevel, hleaf, habove.stable hg⟩, h.way.stable hw hw' hg hcj⟩

theorem AtBarrier.stable (hw : w.Ok m) (hw' : w'.Ok m') (hg : World.Guar j w w') (hcj : c ≠ j)
    (h : AtBarrier cap w c key x tokens node) : AtBarrier cap w' c key x tokens node := by
  obtain ⟨others, hothers, haim⟩ := h.aim
  exact ⟨h.clean.stable hw hg hcj, others, hothers, haim.stable hw hw' hg hcj⟩

theorem Entered.stable (hw : w.Ok m) (hw' : w'.Ok m') (hg : World.Guar j w w') (hcj : c ≠ j)
    (h : Entered cap w c key x tokens node) : Entered cap w' c key x tokens node := by
  obtain ⟨l, hl, hlevel⟩ := h.level
  refine ⟨h.refer, h.at_node.stable hw hw' hg hcj, h.clean.stable hw hg hcj, ⟨l, hl.stable hg, hlevel⟩, ?_⟩
  rcases h.way with hopt | ⟨hpess, live, htokens, hlive⟩
  · exact .inl hopt
  · exact .inr ⟨hpess, live, htokens, hlive.stable hw hg hcj⟩

theorem Shows.stable {b : Block K V} (hw : w.Ok m) (hg : World.Guar j w w') (hcj : c ≠ j)
    (hheld : w.Held c node) (h : Shows cap w node b) : Shows cap w' node b :=
  ⟨h.self, h.size, (hg.store node (hw.not_writes hcj hheld)).1.trans h.shape⟩

theorem Settled.stable {nodes : List BlkAddress} (hw : w.Ok m) (hg : World.Guar j w w')
    (hcj : c ≠ j) (h : Settled w c tokens nodes) : Settled w' c tokens nodes :=
  fun t ht => (h t ht).imp_right fun hclean => hclean.stable hw hg hcj

theorem Climb.stable (hw : w.Ok m) (hg : World.Guar j w w') (hcj : c ≠ j)
    (h : Climb cap w c key x tokens) : Climb cap w' c key x tokens := by
  obtain ⟨live, stale, hpending, hstale, hsettled, hno, hyes⟩ := h.parents
  refine ⟨live, stale, hpending, hstale, hsettled.stable hw hg hcj, fun hs => ?_, fun hs => ?_⟩
  · exact (hno hs).imp_right fun ⟨node, hpath⟩ => ⟨node, hpath.stable hw hg hcj⟩
  · obtain ⟨split, node, h1, h2, hpath⟩ := hyes hs
    exact ⟨split, node, h1, h2, hpath.stable hw hg hcj⟩

/-- Nobody replaces the root that a context holds in write mode. -/
theorem Grow.stable {fr : List BlkAddress} (hw : w.Ok m) (hg : World.Guar j w w') (hcj : c ≠ j)
    (h : Grow w c x tokens fr) : Grow w' c x tokens fr := by
  obtain ⟨split, h1, h2, h3, hcut, hleft, hright⟩ := h.split
  have hroot := (hg.root (hw.not_writes hcj hcut.writes.held)).1
  have hl := (hg.store _ (hw.not_writes hcj hcut.writes.held)).2
  have hr := (hg.store _ (hw.not_writes hcj hcut.fresh.1.held)).2
  refine ⟨⟨split, h1, h2, ?_, ?_, ?_, hr.trans hright⟩, ?_⟩
  · rw [hroot]
    exact h3
  · rw [hroot]
    exact hcut.stable hw hg hcj
  · rw [hroot]
    exact hl.trans hleft
  · rw [hroot]
    exact h.settled.stable hw hg hcj

theorem Reading.stable (hw : w.Ok m) (hw' : w'.Ok m') (hg : World.Guar j w w') (hcj : c ≠ j)
    (h : Reading cap w c key x tokens) : Reading cap w' c key x tokens := by
  obtain ⟨node, b, h1, hent, h2, hshows⟩ := h
  exact ⟨node, b, h1, hent.stable hw hw' hg hcj, h2, hshows.stable hw hg hcj hent.clean.1⟩

theorem InsertWait.stable {done : Prop} {fr : List BlkAddress} {st : CtxState} (hw : w.Ok m)
    (hw' : w'.Ok m') (hg : World.Guar j w w') (hcj : c ≠ j)
    (h : InsertWait cap w c key x done tokens fr st) :
    InsertWait cap w' c key x done tokens fr st := by
  cases st with
  | s2 => exact ⟨h.1, h.2.stable hw hw' hg hcj⟩
  | s10 => exact ⟨h.1, h.2.stable hw hg hcj⟩
  | s12 => exact ⟨h.1, h.2.stable hw hg hcj⟩
  | s11 => exact ⟨h.1, h.2.stable hw hg hcj⟩
  | s0 => exact h
  | s10001 => exact h
  | s1 => exact h
  | s9 => exact h
  | s13 => exact h

/-- **What an insert knows is stable under the steps of the others.** -/
theorem InsertKnow.stable {done : Prop} {b : CallBackContext} {fr : List BlkAddress} {p : Phase}
    (hw : w.Ok m) (hw' : w'.Ok m') (hg : World.Guar j w w') (hcj : c ≠ j)
    (h : InsertKnow cap w c key x done b fr p) : InsertKnow cap w' c key x done b fr p := by
  cases p with
  | free => exact h
  | new => exact ⟨h.1, h.2.stable hg⟩
  | queued node type => exact ⟨h.1, h.2.1, h.2.2.stable hw hw' hg hcj⟩
  | granted =>
      obtain ⟨hbefore, node, hnode, hat⟩ := h
      exact ⟨hbefore, node, hnode, hat.stable hw hw' hg hcj⟩
  | io n =>
      obtain ⟨st, hst, hwait⟩ := h
      exact ⟨st, hst, hwait.stable hw hw' hg hcj⟩

theorem SearchAim.stable {lost lost' : Prop} (hw : w.Ok m) (hw' : w'.Ok m')
    (hg : World.Guar j w w') (hcj : c ≠ j) (hlost : lost → lost')
    (hroot : w'.root ≠ w.root → tokens = [] → lost')
    (h : SearchAim w c key lost tokens node) : SearchAim w' c key lost' tokens node := by
  obtain ⟨l, hl, habove⟩ := h.level
  refine ⟨⟨l, hl.stable hg, habove.stable hg⟩, h.length, fun hnot => ?_⟩
  rcases h.way (fun hl => hnot (hlost hl)) with ⟨hnil, hnode⟩ | hat
  · by_cases hsame : w'.root = w.root
    · exact .inl ⟨hnil, hnode.trans hsame.symm⟩
    · exact absurd (hroot hsame hnil) hnot
  · exact .inr (hat.stable hw hw' hg hcj)

theorem SearchAt.stable {lost lost' : Prop} {others : List BarrierToken} (hw : w.Ok m)
    (hw' : w'.Ok m') (hg : World.Guar j w w') (hcj : c ≠ j) (hlost : lost → lost')
    (h : SearchAt w c key lost tokens others node) : SearchAt w' c key lost' tokens others node :=
  ⟨h.tokens, h.knows.stable hg, hg.held hcj h.held,
    fun hnot => (h.way fun hl => hnot (hlost hl)).stable hw hw' hg hcj⟩

theorem SearchRuns.stable {y : SearchContext K V} {lost lost' : Prop} {st : CtxState}
    (hw : w.Ok m) (hw' : w'.Ok m') (hg : World.Guar j w w') (hcj : c ≠ j)
    (hlost : lost → lost') (hroot : w'.root ≠ w.root → st = .s0 → tokens = [] → lost')
    (h : SearchRuns cap w c key y lost tokens st) :
    SearchRuns cap w' c key y lost' tokens st := by
  cases st with
  | s0 => exact SearchAim.stable hw hw' hg hcj hlost (fun hne => hroot hne rfl) h
  | s1 =>
      obtain ⟨others, hlen, hat⟩ := h
      exact ⟨others, hlen, hat.stable hw hw' hg hcj hlost⟩
  | s2 =>
      obtain ⟨hat, b, hbuffer, hshows⟩ := h
      exact ⟨hat.stable hw hw' hg hcj hlost, b, hbuffer, hshows.stable hw hg hcj hat.held⟩
  | s10001 => exact h
  | s9 => exact h
  | s10 => exact h
  | s11 => exact h
  | s12 => exact h
  | s13 => exact h

/-- **What a search knows is stable** as well, but for a root it waits for. -/
theorem SearchKnow.stable {y : SearchContext K V} {lost lost' : Prop} {b : CallBackContext}
    {p : Phase} (hw : w.Ok m) (hw' : w'.Ok m') (hg : World.Guar j w w') (hcj : c ≠ j)
    (hlost : lost → lost') (hroot : w'.root ≠ w.root → p.waits → b.obtainedBarriers = [] → lost')
    (h : SearchKnow cap w c key y lost b p) : SearchKnow cap w' c key y lost' b p := by
  cases p with
  | free => exact h
  | new =>
      have hruns : SearchRuns cap w c key y lost b.obtainedBarriers .s0 := h
      exact hruns.stable hw hw' hg hcj hlost (fun hne _ => hroot hne rfl)
  | queued node type =>
      have hruns : SearchRuns cap w c key y lost b.obtainedBarriers .s0 := h
      exact hruns.stable hw hw' hg hcj hlost (fun hne _ => hroot hne rfl)
  | granted =>
      have hruns : SearchRuns cap w c key y lost b.obtainedBarriers .s1 := h
      exact hruns.stable hw hw' hg hcj hlost (fun _ he => by cases he)
  | io n =>
      have hruns : SearchRuns cap w c key y lost b.obtainedBarriers .s2 := h
      exact hruns.stable hw hw' hg hcj hlost (fun _ he => by cases he)

end Stable

end PullBasedBPlusTree

end NvmTree
