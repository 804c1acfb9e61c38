/-
  NvmTree.Concurrent.Invariant — what each thread knows at each program counter.

  The threads are the agents of a shared tree (`World`): a thread holds the nodes
  it has locked, and in write mode the blocks it has allocated and not linked.
  `SearchOk` and `InsertOk` give, for each program counter, what its thread knows;
  they are stable under the steps of the others.

  `Inv` joins them with the linearization so far.  Main results:
    * `ThreadOk.stable` — no other thread invalidates what a thread knows.
    * `Inv.next`        — a step of one thread only has to establish what that
      thread knows.
-/
import NvmTree.Concurrent.Tree
import NvmTree.RangeTree.Descent

namespace NvmTree

open RangeTree Linearize

namespace ConcurrentBPlusTree

variable {T K V : Type*}

/-! ## §1. The state as a world. -/

/-- The addresses a thread has allocated and not linked yet. -/
def InsertPc.fresh : InsertPc K V → List BlkAddress
  | .writeLeft _ _ _ _ right _ => [right.selfRep]
  | .writeRight _ _ _ _ right _ => [right.selfRep]
  | .newRoot _ _ right _ => [right.selfRep]
  | .writeRoot _ _ right _ new_inner_node => [right.selfRep, new_inner_node.selfRep]
  | .updateRoot _ _ right _ new_inner_node => [right.selfRep, new_inner_node.selfRep]
  | _ => []

def Thread.fresh : Thread K V → List BlkAddress
  | .inserting _ _ _ pc => pc.fresh
  | _ => []

/-- The nodes a thread has locked. -/
def SearchPc.nodes : SearchPc V → List BlkAddress
  | .lock _ _ parent => parent.toList
  | .check node => [node]
  | .retry node => [node]
  | .unlockParent node parent => [node, parent]
  | .read node => [node]
  | .unlock node _ => [node]
  | _ => []

def InsertPc.nodes : InsertPc K V → List BlkAddress
  | .optLock _ _ _ parent => parent.toList
  | .optCheck node _ => [node]
  | .optRetry node => [node]
  | .optUnlockParent node _ parent => [node, parent]
  | .optRead node _ => [node]
  | .optWrite node _ => [node]
  | .optUnlock node _ => [node]
  | .lock _ _ parents => parents.map Frame.current_node_id
  | .check node => [node]
  | .retry node => [node]
  | .read node _ parents => node :: parents.map Frame.current_node_id
  | .leaf node _ parents _ => node :: parents.map Frame.current_node_id
  | .writeLeft node _ parents _ _ _ => node :: parents.map Frame.current_node_id
  | .writeRight node _ parents _ _ _ => node :: parents.map Frame.current_node_id
  | .newRoot node _ _ _ => [node]
  | .writeRoot node _ _ _ _ => [node]
  | .updateRoot node _ _ _ _ => [node]
  | .writeBack f parents => f.current_node_id :: parents.map Frame.current_node_id
  | .inner f parents _ => f.current_node_id :: parents.map Frame.current_node_id
  | .unlock node parents _ => node :: parents.map Frame.current_node_id
  | _ => []

def Thread.nodes : Thread K V → List BlkAddress
  | .idle => []
  | .searching _ _ pc => pc.nodes
  | .inserting _ _ _ pc => pc.nodes

namespace State

variable [DecidableEq T]

/-- What the blocks contain. -/
def raw (s : State T K V) : Store K V BlkAddress := fun a => (s.blocks a).map Block.shape

/-- What thread `t` holds: locks, and blocks nobody else can know. -/
def mode (s : State T K V) (t : T) (x : BlkAddress) : Option Mode :=
  if x ∈ (s.threads t).fresh then some .write else s.locks.lockOf t x

def world (s : State T K V) (E : Store K V BlkAddress) (G : Plan K BlkAddress) :
    World T K V BlkAddress :=
  ⟨s.raw, E, G, s.root, s.depth, s.mode⟩

end State

/-! ## §2. What a thread knows. -/

section Know

variable [LinearOrder K] (cap : Nat) (w : World T K V BlkAddress) (t : T)

def SearchOk (key : K) : SearchPc V → Prop
  | .arg => True
  | .lock node true parent => w.Knows node ∧ parent = none
  | .lock node false parent => w.At t node key ∧ ∀ p ∈ parent, w.Clean t p ∧ w.Knows p ∧ node ≠ p
  | .check node => w.Knows node ∧ w.Clean t node
  | .retry node => w.Knows node ∧ w.Clean t node
  | .unlockParent node parent => w.At t node key ∧ w.Clean t node ∧ w.Clean t parent
      ∧ node ≠ parent
  | .read node => w.At t node key ∧ w.Clean t node
  | .unlock node _ => w.Clean t node
  | .ret _ => True

/-- The frame as the agent's copy of a row. -/
def Frame.copy (f : Frame K) : World.Frame K BlkAddress :=
  ⟨f.current_node_id, f.inner_node.slots, f.target_node_index, f.inner_node.modified⟩

/-- The last call is the one on the root. -/
def FramesOk : List (Frame K) → Prop
  | [] => True
  | f :: parents => (f.is_root = true ↔ parents = [])
      ∧ f.inner_node.selfRep = f.current_node_id ∧ FramesOk parents

/-- A pessimistic call that holds `node`, below the calls of `parents`. -/
structure Descending (key : K) (node : BlkAddress) (is_root : Bool) (parents : List (Frame K)) :
    Prop where
  at_node : w.At t node key
  clean : w.Clean t node
  writes : w.Writes t node
  path : w.Path t key cap none (parents.map Frame.copy) node
  is_root : is_root = true ↔ parents = []
  frames : FramesOk parents

/-- A pessimistic call whose node is being split. -/
structure Splitting (key : K) (node : BlkAddress) (is_root : Bool) (parents : List (Frame K))
    (left right : Node K V) : Prop where
  path : w.Path t key cap none (parents.map Frame.copy) node
  is_root : is_root = true ↔ parents = []
  frames : FramesOk parents
  left_rep : left.selfRep = node
  left_size : left.size ≤ cap
  right_size : right.size ≤ cap
  fresh : w.Fresh t right.selfRep

/-- The root was split, and has no parent yet. -/
structure Growing (node : BlkAddress) (left right : Node K V) (boundary_key : K) : Prop where
  cut : w.Cut t node right.selfRep boundary_key left.shape right.shape
  left_rep : left.selfRep = node
  left_raw : w.raw node = some left.shape
  right_raw : w.raw right.selfRep = some right.shape
  root : node = w.root

/-- The new root is allocated. -/
structure Rooting (node : BlkAddress) (left right : Node K V) (boundary_key : K)
    (new_inner_node : InnerNode K) : Prop where
  fresh : w.Fresh t new_inner_node.selfRep
  ne : right.selfRep ≠ new_inner_node.selfRep
  slots : ∃ kl, new_inner_node.slots = [(kl, node), (boundary_key, right.selfRep)]
    ∧ kl ∈ left.shape.keys ∧ ∀ x ∈ left.shape.keys, kl ≤ x

def InsertOk (key : K) (value : V) : InsertPc K V → Prop
  | .start => True
  | .optArgs => True
  | .optHeight root => w.Knows root
  | .optRoot _ => True
  | .optLock node depth true parent =>
      w.Knows node ∧ parent = none ∧ ∃ d : Nat, depth = d ∧ (node = w.root → d = w.depth)
  | .optLock node depth false parent => w.At t node key
      ∧ (∃ l : Nat, depth = l ∧ w.LevelIs node l)
      ∧ ∀ p ∈ parent, w.Clean t p ∧ w.Knows p ∧ node ≠ p
  | .optCheck node depth => w.Knows node ∧ w.Clean t node ∧ (depth = 1 → w.Writes t node)
      ∧ ∃ d : Nat, depth = d ∧ (node = w.root → d = w.depth)
  | .optRetry node => w.Knows node ∧ w.Clean t node
  | .optUnlockParent node depth parent => w.At t node key ∧ w.Clean t node ∧ w.Clean t parent
      ∧ node ≠ parent ∧ (depth = 1 → w.Writes t node) ∧ ∃ l : Nat, depth = l ∧ w.LevelIs node l
  | .optRead node depth => w.At t node key ∧ w.Clean t node ∧ (depth = 1 → w.Writes t node)
      ∧ ∃ l : Nat, depth = l ∧ w.LevelIs node l
  | .optWrite node leaf => w.At t node key ∧ w.Clean t node ∧ w.Writes t node
      ∧ ∃ es next, w.E node = some (.leaf es next)
        ∧ leaf = ⟨node, next, setEntry key value es, true⟩ ∧ leaf.size ≤ cap
  | .optUnlock node _ => w.Clean t node
  | .arg => True
  | .lock node true parents => w.Knows node ∧ parents = []
  | .lock node false parents => w.At t node key ∧ parents ≠ []
      ∧ w.Path t key cap none (parents.map Frame.copy) node ∧ FramesOk parents
  | .check node => w.Knows node ∧ w.Clean t node ∧ w.Writes t node
  | .retry node => w.Knows node ∧ w.Clean t node
  | .read node is_root parents => Descending cap w t key node is_root parents
  | .leaf node is_root parents leaf => Descending cap w t key node is_root parents
      ∧ w.E node = some (.leaf leaf.entries leaf.rightSibling) ∧ leaf.selfRep = node
      ∧ leaf.size ≤ cap
  | .writeLeft node is_root parents (.leaf left) right boundary_key =>
      Splitting cap w t key node is_root parents (.leaf left) right
      ∧ w.At t node key ∧ w.Clean t node ∧ w.Writes t node
      ∧ ∃ es next, w.E node = some (.leaf es next)
        ∧ Halves right.selfRep boundary_key (.leaf (setEntry key value es) next)
            (Node.leaf left).shape right.shape
  | .writeLeft node is_root parents (.inner left) right boundary_key =>
      Splitting cap w t key node is_root parents (.inner left) right
      ∧ w.Cut t node right.selfRep boundary_key (Node.inner left).shape right.shape
  | .writeRight node is_root parents left right boundary_key =>
      Splitting cap w t key node is_root parents left right
      ∧ w.Cut t node right.selfRep boundary_key left.shape right.shape
      ∧ w.raw node = some left.shape
  | .newRoot node left right boundary_key => Growing w t node left right boundary_key
  | .writeRoot node left right boundary_key new_inner_node =>
      Growing w t node left right boundary_key
      ∧ Rooting w t node left right boundary_key new_inner_node
  | .updateRoot node left right boundary_key new_inner_node =>
      Growing w t node left right boundary_key
      ∧ Rooting w t node left right boundary_key new_inner_node
      ∧ w.raw new_inner_node.selfRep = some (.inner new_inner_node.slots)
  | .writeBack f parents => w.Writes t f.current_node_id ∧ w.Knows f.current_node_id
      ∧ w.E f.current_node_id = some (.inner f.inner_node.slots)
      ∧ f.inner_node.selfRep = f.current_node_id ∧ f.inner_node.size ≤ cap
      ∧ (parents = [] ∨ w.Path t key cap none (parents.map Frame.copy) f.current_node_id)
      ∧ FramesOk parents
  | .inner f parents split =>
      (∃ a, w.FrameOk t key cap (some (split.boundary_key, split.right)) f.copy a)
      ∧ f.inner_node.size = cap
      ∧ w.Path t key cap none (parents.map Frame.copy) f.current_node_id
      ∧ FramesOk (f :: parents)
  | .unlock node parents split => w.Clean t node
      ∧ (parents = [] ∨ w.Path t key cap (split.map fun s => (s.boundary_key, s.right))
          (parents.map Frame.copy) node)
      ∧ FramesOk parents
  | .ret => True

def ThreadOk : Thread K V → Prop
  | .idle => True
  | .searching _ key pc => SearchOk w t key pc
  | .inserting _ key value pc => InsertOk cap w t key value pc

end Know

/-! ## §3. No other thread invalidates it. -/

section Stable

variable [LinearOrder K] {cap : Nat} {w w' : World T K V BlkAddress} {m m' : K → Option V}
  {t j : T} {key : K} {value : V}

theorem SearchOk.stable (hw : w.Ok m) (hw' : w'.Ok m') (hg : World.Guar j w w') (htj : t ≠ j) :
    ∀ {pc : SearchPc V}, SearchOk w t key pc → SearchOk w' t key pc
  | .arg, _ => trivial
  | .lock _ true _, h => ⟨h.1.stable hg, h.2⟩
  | .lock _ false _, h => ⟨h.1.stable hw hw' hg htj, fun p hp =>
      ⟨(h.2 p hp).1.stable hw hg htj, (h.2 p hp).2.1.stable hg, (h.2 p hp).2.2⟩⟩
  | .check _, h => ⟨h.1.stable hg, h.2.stable hw hg htj⟩
  | .retry _, h => ⟨h.1.stable hg, h.2.stable hw hg htj⟩
  | .unlockParent _ _, h => ⟨h.1.stable hw hw' hg htj, h.2.1.stable hw hg htj,
      h.2.2.1.stable hw hg htj, h.2.2.2⟩
  | .read _, h => ⟨h.1.stable hw hw' hg htj, h.2.stable hw hg htj⟩
  | .unlock _ _, h => World.Clean.stable hw hg htj h
  | .ret _, _ => trivial

/-- A fact about a cell held in write mode. -/
theorem raw_stable (hw : w.Ok m) (hg : World.Guar j w w') (htj : t ≠ j) {x : BlkAddress}
    (hx : w.Writes t x) : w'.E x = w.E x ∧ w'.raw x = w.raw x :=
  hg.store x (hw.not_writes htj hx.held)

theorem Descending.stable (hw : w.Ok m) (hw' : w'.Ok m') (hg : World.Guar j w w') (htj : t ≠ j)
    {node : BlkAddress} {is_root : Bool} {parents : List (Frame K)}
    (h : Descending cap w t key node is_root parents) :
    Descending cap w' t key node is_root parents :=
  ⟨h.at_node.stable hw hw' hg htj, h.clean.stable hw hg htj, hg.writes htj h.writes,
    h.path.stable hw hg htj, h.is_root, h.frames⟩

theorem Splitting.stable (hw : w.Ok m) (hg : World.Guar j w w') (htj : t ≠ j)
    {node : BlkAddress} {is_root : Bool} {parents : List (Frame K)} {left right : Node K V}
    (h : Splitting cap w t key node is_root parents left right) :
    Splitting cap w' t key node is_root parents left right :=
  ⟨h.path.stable hw hg htj, h.is_root, h.frames, h.left_rep, h.left_size, h.right_size,
    h.fresh.stable hw hg htj⟩

theorem Growing.stable (hw : w.Ok m) (hg : World.Guar j w w') (htj : t ≠ j)
    {node : BlkAddress} {left right : Node K V} {boundary_key : K}
    (h : Growing w t node left right boundary_key) :
    Growing w' t node left right boundary_key := by
  have hnode := raw_stable hw hg htj h.cut.writes
  have hright := raw_stable hw hg htj h.cut.fresh.1
  have hroot := h.root ▸ h.cut.writes.held
  exact ⟨h.cut.stable hw hg htj, h.left_rep, hnode.2.trans h.left_raw,
    hright.2.trans h.right_raw, h.root.trans (hg.root (hw.not_writes htj hroot)).1.symm⟩

theorem Rooting.stable (hw : w.Ok m) (hg : World.Guar j w w') (htj : t ≠ j)
    {node : BlkAddress} {left right : Node K V} {boundary_key : K} {new_inner_node : InnerNode K}
    (h : Rooting w t node left right boundary_key new_inner_node) :
    Rooting w' t node left right boundary_key new_inner_node :=
  ⟨h.fresh.stable hw hg htj, h.ne, h.slots⟩

theorem InsertOk.stable (hw : w.Ok m) (hw' : w'.Ok m') (hg : World.Guar j w w') (htj : t ≠ j) :
    ∀ {pc : InsertPc K V}, InsertOk cap w t key value pc → InsertOk cap w' t key value pc
  | .start, _ => trivial
  | .optArgs, _ => trivial
  | .optHeight _, h => World.Knows.stable hg h
  | .optRoot _, _ => trivial
  | .optLock _ _ true _, ⟨h1, h2, d, h3, h4⟩ =>
      ⟨h1.stable hg, h2, d, h3, hg.root_depth h1 h4⟩
  | .optLock _ _ false _, ⟨h1, ⟨l, h2, h3⟩, h4⟩ => ⟨h1.stable hw hw' hg htj,
      ⟨l, h2, h3.stable hg⟩, fun p hp =>
      ⟨(h4 p hp).1.stable hw hg htj, (h4 p hp).2.1.stable hg, (h4 p hp).2.2⟩⟩
  | .optCheck _ _, ⟨h1, h2, h3, d, h4, h5⟩ => ⟨h1.stable hg, h2.stable hw hg htj,
      fun hd => hg.writes htj (h3 hd), d, h4, hg.root_depth h1 h5⟩
  | .optRetry _, h => ⟨h.1.stable hg, h.2.stable hw hg htj⟩
  | .optUnlockParent _ _ _, ⟨h1, h2, h3, h4, h5, l, h6, h7⟩ => ⟨h1.stable hw hw' hg htj,
      h2.stable hw hg htj, h3.stable hw hg htj, h4, fun hd => hg.writes htj (h5 hd), l, h6,
      h7.stable hg⟩
  | .optRead _ _, ⟨h1, h2, h3, l, h4, h5⟩ => ⟨h1.stable hw hw' hg htj, h2.stable hw hg htj,
      fun hd => hg.writes htj (h3 hd), l, h4, h5.stable hg⟩
  | .optWrite _ _, ⟨h1, h2, h3, es, next, h4, h5⟩ => ⟨h1.stable hw hw' hg htj,
      h2.stable hw hg htj, hg.writes htj h3, es, next,
      (raw_stable hw hg htj h3).1.trans h4, h5⟩
  | .optUnlock _ _, h => World.Clean.stable hw hg htj h
  | .arg, _ => trivial
  | .lock _ true _, h => ⟨h.1.stable hg, h.2⟩
  | .lock _ false _, ⟨h1, h2, h3, h4⟩ => ⟨h1.stable hw hw' hg htj, h2, h3.stable hw hg htj, h4⟩
  | .check _, h => ⟨h.1.stable hg, h.2.1.stable hw hg htj, hg.writes htj h.2.2⟩
  | .retry _, h => ⟨h.1.stable hg, h.2.stable hw hg htj⟩
  | .read _ _ _, h => Descending.stable hw hw' hg htj h
  | .leaf _ _ _ _, ⟨h1, h2, h3⟩ => ⟨h1.stable hw hw' hg htj,
      (raw_stable hw hg htj h1.writes).1.trans h2, h3⟩
  | .writeLeft _ _ _ (.leaf _) _ _, ⟨h1, h2, h3, h4, es, next, h5, h6⟩ =>
      ⟨h1.stable hw hg htj, h2.stable hw hw' hg htj, h3.stable hw hg htj, hg.writes htj h4,
        es, next, (raw_stable hw hg htj h4).1.trans h5, h6⟩
  | .writeLeft _ _ _ (.inner _) _ _, ⟨h1, h2⟩ => ⟨h1.stable hw hg htj, h2.stable hw hg htj⟩
  | .writeRight _ _ _ _ _ _, ⟨h1, h2, h3⟩ => ⟨h1.stable hw hg htj, h2.stable hw hg htj,
      (raw_stable hw hg htj h2.writes).2.trans h3⟩
  | .newRoot _ _ _ _, h => Growing.stable hw hg htj h
  | .writeRoot _ _ _ _ _, ⟨h1, h2⟩ => ⟨h1.stable hw hg htj, h2.stable hw hg htj⟩
  | .updateRoot _ _ _ _ _, ⟨h1, h2, h3⟩ => ⟨h1.stable hw hg htj, h2.stable hw hg htj,
      (raw_stable hw hg htj h2.fresh.1).2.trans h3⟩
  | .writeBack _ _, ⟨h1, h2, h3, h4, h5, h6, h7⟩ => ⟨hg.writes htj h1, h2.stable hg,
      (raw_stable hw hg htj h1).1.trans h3, h4, h5, h6.imp_right (World.Path.stable hw hg htj), h7⟩
  | .inner _ _ _, ⟨⟨a, h1⟩, h2, h3, h4⟩ => ⟨⟨a, h1.stable hw hg htj⟩, h2,
      h3.stable hw hg htj, h4⟩
  | .unlock _ _ _, ⟨h1, h2, h3⟩ => ⟨h1.stable hw hg htj,
      h2.imp_right (World.Path.stable hw hg htj), h3⟩
  | .ret, _ => trivial

/-- **No step of another thread invalidates what a thread knows.** -/
theorem ThreadOk.stable (hs : World.Guars j w w') (htj : t ≠ j) {th : Thread K V}
    (h : ThreadOk cap w t th) : ThreadOk cap w' t th := by
  refine hs.induct (P := fun w => ThreadOk cap w t th) ?_ h
  intro w w' m m' hw hw' hg h
  cases th with
  | idle => trivial
  | searching id key pc => exact SearchOk.stable hw hw' hg htj h
  | inserting id key value pc => exact InsertOk.stable hw hw' hg htj h

end Stable

/-! ## §4. The invariant. -/

/-- A map with its two operations. -/
def mapSpec [DecidableEq K] (m : K → Option V) : Op K V → (K → Option V) × Answer V
  | .insert key value => (Function.update m key (some value), .inserted)
  | .search key => (m, .searched (m key))

/-- What a search has found, once it has read its leaf. -/
def SearchPc.found : SearchPc V → Option (Option V)
  | .unlock _ found => some found
  | .ret found => some found
  | _ => none

/-- The insertion has taken effect: its leaf, or the left half of it, is written. -/
def InsertPc.done : InsertPc K V → Bool
  | .optUnlock _ is_succeed => is_succeed
  | .writeLeft _ _ _ (.inner _) _ _ => true
  | .writeRight _ _ _ _ _ _ => true
  | .newRoot _ _ _ _ => true
  | .writeRoot _ _ _ _ _ => true
  | .updateRoot _ _ _ _ _ => true
  | .writeBack _ _ => true
  | .inner _ _ _ => true
  | .unlock _ _ _ => true
  | .ret => true
  | _ => false

/-- The operation of a thread, and its answer once it has taken effect. -/
def Thread.status : Thread K V → Option (Nat × Op K V × Option (Answer V))
  | .idle => none
  | .searching id key pc => some (id, .search key, pc.found.map .searched)
  | .inserting id key value pc =>
      some (id, .insert key value, if pc.done then some .inserted else none)

section Inv

variable [DecidableEq T] [LinearOrder K]

/-- **The threads share a tree.**  `E` and `G` are the tree that the blocks show once all
threads have written what they decided, and `m` is its map. -/
structure Inv (cap : Nat) (m₀ : K → Option V) (s : State T K V) (E : Store K V BlkAddress)
    (G : Plan K BlkAddress) (m : K → Option V) (order : List (Nat × Op K V × Answer V)) :
    Prop where
  ok : (s.world E G).Ok m
  blocks : BlocksOk cap s.blocks
  allocator : s.allocator.Ok
  unused : ∀ x, s.allocator.Free x → G x = none ∧ ∀ t, x ∉ (s.threads t).fresh
  locked : ∀ t x, s.locks.lockOf t x ≠ none → x ∈ (s.threads t).nodes ∧ ∃ sp, G x = some sp
  know : ∀ t, ThreadOk cap (s.world E G) t (s.threads t)
  ledger : Ledger mapSpec m₀ s.nextId s.history (fun t => (s.threads t).status) order m

variable {cap : Nat} {m₀ m m' : K → Option V} {s s' : State T K V} {E E' : Store K V BlkAddress}
  {G G' : Plan K BlkAddress} {order order' : List (Nat × Op K V × Answer V)} {t : T}

/-- The invariant holds, for some tree and some order. -/
def State.Sound (cap : Nat) (m₀ : K → Option V) (s : State T K V) : Prop :=
  ∃ E G m order, Inv cap m₀ s E G m order

theorem Inv.sound (h : Inv cap m₀ s E G m order) : s.Sound cap m₀ := ⟨E, G, m, order, h⟩

/-- The nodes of `G` are nodes of `G'`, on the same levels. -/
def KeepsLevels (G G' : Plan K BlkAddress) : Prop :=
  ∀ x sp, G x = some sp → ∃ sp', G' x = some sp' ∧ sp'.level = sp.level

/-- The invariant holds, and the nodes of `G` have kept their levels. -/
def State.SoundFrom (cap : Nat) (m₀ : K → Option V) (G : Plan K BlkAddress) (s : State T K V) :
    Prop :=
  ∃ E' G' m' order', Inv cap m₀ s E' G' m' order' ∧ KeepsLevels G G'

theorem Inv.same (h : Inv cap m₀ s E G m order) : s.SoundFrom cap m₀ G :=
  ⟨E, G, m, order, h, fun _ sp hsp => ⟨sp, hsp, rfl⟩⟩

theorem keepsLevels (h : World.Guars t (s.world E G) (s'.world E' G')) : KeepsLevels G G' :=
  fun x sp hsp => h.induct (P := fun w => w.LevelIs x sp.level) (fun _ _ hg hl => hl.stable hg)
    ⟨sp, hsp, rfl⟩

omit [DecidableEq T] in
/-- What a thread has allocated and not linked is not in the tree. -/
theorem ThreadOk.fresh {w : World T K V BlkAddress} {th : Thread K V} (h : ThreadOk cap w t th)
    {x : BlkAddress} (hx : x ∈ th.fresh) : w.G x = none := by
  cases th with
  | idle => cases hx
  | searching id key pc => cases hx
  | inserting id key value pc =>
      cases pc with
      | writeLeft node is_root parents left right b =>
          rw [List.mem_singleton.1 hx]
          cases left with
          | leaf left => exact h.1.fresh.2
          | inner left => exact h.1.fresh.2
      | writeRight node is_root parents left right b =>
          rw [List.mem_singleton.1 hx]
          exact h.1.fresh.2
      | newRoot node left right b =>
          rw [List.mem_singleton.1 hx]
          exact Growing.cut h |>.fresh.2
      | writeRoot node left right b new =>
          rcases List.mem_cons.1 hx with rfl | hx
          · exact h.1.cut.fresh.2
          · rw [List.mem_singleton.1 hx]
            exact h.2.fresh.2
      | updateRoot node left right b new =>
          rcases List.mem_cons.1 hx with rfl | hx
          · exact h.1.cut.fresh.2
          · rw [List.mem_singleton.1 hx]
            exact h.2.1.fresh.2
      | _ => exact absurd hx List.not_mem_nil

/-- **A step of one thread** only has to establish what that thread knows. -/
theorem Inv.next (h : Inv cap m₀ s E G m order) (t : T)
    (hguars : World.Guars t (s.world E G) (s'.world E' G')) (hok : (s'.world E' G').Ok m')
    (hblocks : BlocksOk cap s'.blocks) (halloc : s'.allocator.Ok)
    (hunused : ∀ x, s'.allocator.Free x → G' x = none ∧ ∀ u, x ∉ (s'.threads u).fresh)
    (hother : ∀ u, u ≠ t → s'.threads u = s.threads u)
    (hlocks : ∀ u x, u ≠ t → s'.locks.lockOf u x = s.locks.lockOf u x)
    (hself : ∀ x, s'.locks.lockOf t x ≠ none → x ∈ (s'.threads t).nodes ∧ ∃ sp, G' x = some sp)
    (hknow : ThreadOk cap (s'.world E' G') t (s'.threads t))
    (hledger : Ledger mapSpec m₀ s'.nextId s'.history
      (Function.update (fun u => (s.threads u).status) t (s'.threads t).status) order' m') :
    Inv cap m₀ s' E' G' m' order' := by
  refine ⟨hok, hblocks, halloc, hunused, fun u x hx => ?_, fun u => ?_, ?_⟩
  · by_cases hu : u = t
    · rw [hu] at hx ⊢
      exact hself x hx
    · rw [hlocks u x hu] at hx
      rw [hother u hu]
      obtain ⟨hmem, hplan⟩ := h.locked u x hx
      exact ⟨hmem, hguars.induct (P := fun w => w.Knows x) (fun _ _ hg hk => hk.stable hg) hplan⟩
  · by_cases hu : u = t
    · rw [hu]
      exact hknow
    · rw [hother u hu]
      exact (h.know u).stable hguars hu
  · have hstatus : (fun u => (s'.threads u).status)
        = Function.update (fun u => (s.threads u).status) t (s'.threads t).status := by
      funext u
      by_cases hu : u = t
      · rw [hu, Function.update_self]
      · rw [Function.update_of_ne hu, hother u hu]
    rw [hstatus]
    exact hledger

end Inv

end ConcurrentBPlusTree

end NvmTree
