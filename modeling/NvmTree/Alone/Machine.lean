/-
  NvmTree.Alone.Machine — one insertion, alone: down to a leaf and up again.

  The recursion of `VanillaBPlusTree`, the pessimistic recursion of
  `concurrent_b_plus_tree` and the states of `insert_context` do the same to the
  blocks when nobody else is there: on the way down they keep a copy of every inner
  node, its first key lowered where the key is below it; on the way up they write
  the leaf, its new right sibling if it was full, and every copy that changed.
  `Machine` is that way, one node a step.

  What a tree needs for it is small (`Machine.Ok`): the nodes on the way are of
  falling levels, every block is that of its address, and no address in use is free.

  Main results:
    * `Ok.step`   — a step is possible until the insertion is done, and keeps it.
    * `Ends.next` — every step leads to the one end.
-/
import NvmTree.Node.Halves
import NvmTree.Node.Stored
import Mathlib.Logic.Relation

namespace NvmTree

open RangeTree

namespace Alone

/-! ## §1. The machine. -/

/-- The copy of an inner node, and the slot the insertion went down. -/
structure Frame (K : Type*) where
  node : InnerNode K
  position : Nat
  deriving Repr, DecidableEq

/-- The copy on the way to `key`: its first key is lowered if `key` is below it. -/
def Frame.toward {K : Type*} [LinearOrder K] (key : K) (n : InnerNode K) : Frame K :=
  let index := n.locateChildIndex key
  ⟨if index < 0 then n.setFirstKey key else n, index.toNat⟩

structure Split (K V : Type*) where
  left : Node K V
  right : Node K V
  boundary : K
  deriving Repr, DecidableEq

/-- The insertion is on its way down to `node`, on its way up with the split of the
node below, or done.  The last parent comes first. -/
inductive Job (K V : Type*) where
  | down (node : BlkAddress) (parents : List (Frame K))
  | up (split : Option (Split K V)) (parents : List (Frame K))
  | done
  deriving Repr, DecidableEq

structure Machine (K V : Type*) where
  blocks : BlkAddress → Option (Block K V)
  allocator : Allocator
  root : BlkAddress
  depth : Nat
  job : Job K V

namespace Machine

variable {K V : Type*}

def goto (σ : Machine K V) (job : Job K V) : Machine K V := { σ with job := job }

def write (σ : Machine K V) (n : Node K V) : Machine K V :=
  { σ with blocks := Function.update σ.blocks n.selfRep (some n.serialize) }

def allocate (σ : Machine K V) : Machine K V :=
  { σ with allocator := σ.allocator.allocate }

variable [LinearOrder K]

/-- The leaf takes the entry, or is split. -/
def insertLeaf (capacity : Nat) (key : K) (value : V) (σ : Machine K V) (leaf : LeafNode K V)
    (parents : List (Frame K)) : Machine K V :=
  match leaf.insertWithSplitSupport capacity key value σ.allocator.next with
  | (left, none) => (σ.write (.leaf left)).goto (.up none parents)
  | (left, some (right, boundary)) =>
      ((σ.allocate.write (.leaf left)).write (.leaf right)).goto
        (.up (some ⟨.leaf left, .leaf right, boundary⟩) parents)

/-- Down to the child that may contain the key. -/
def visit (key : K) (σ : Machine K V) (n : InnerNode K) (parents : List (Frame K)) :
    Option (Machine K V) :=
  let p := Frame.toward key n
  match p.node.slots[p.position]? with
  | none => none
  | some (_, child) => some (σ.goto (.down child (p :: parents)))

/-- The copy `p` takes the new slot, or is split. -/
def addSplit (capacity : Nat) (σ : Machine K V) (s : Split K V) (p : Frame K)
    (parents : List (Frame K)) : Option (Machine K V) :=
  if p.node.size < capacity then
    some ((σ.write (.inner (p.node.insertInnerNode s.right.selfRep s.boundary
      (p.position + 1)))).goto (.up none parents))
  else
    let halves := p.node.splitInsert capacity p.position s.right.selfRep s.boundary
      σ.allocator.next
    match halves.2.slots with
    | [] => none
    | (boundary, _) :: _ =>
        some (((σ.allocate.write (.inner halves.1)).write (.inner halves.2)).goto
          (.up (some ⟨.inner halves.1, .inner halves.2, boundary⟩) parents))

/-- The root was split, and a new one goes over it. -/
def newRoot (σ : Machine K V) (s : Split K V) : Option (Machine K V) :=
  match s.left.getLeftmostKey, s.right.getLeftmostKey with
  | some kl, some kr =>
      let n := (InnerNode.ofChildren σ.allocator.next (kl, s.left.selfRep)
        (kr, s.right.selfRep)).markModified
      some { σ.allocate.write (.inner n) with
        root := n.selfRep
        depth := σ.depth + 1
        job := .done }
  | _, _ => none

def step (capacity : Nat) (key : K) (value : V) (σ : Machine K V) : Option (Machine K V) :=
  match σ.job with
  | .down node parents =>
      match (σ.blocks node).map Block.deserialize with
      | none => none
      | some (.leaf leaf) => some (insertLeaf capacity key value σ leaf parents)
      | some (.inner n) => visit key σ n parents
  | .up none [] => some (σ.goto .done)
  | .up none (p :: parents) =>
      some ((if p.node.modified then σ.write (.inner p.node) else σ).goto (.up none parents))
  | .up (some s) [] => newRoot σ s
  | .up (some s) (p :: parents) => addSplit capacity σ s p parents
  | .done => none

section StepEqs

variable {capacity : Nat} {key : K} {value : V} {σ : Machine K V} {node : BlkAddress}
  {s : Split K V} {p : Frame K} {parents : List (Frame K)}

theorem step_leaf (hjob : σ.job = .down node parents) {leaf : LeafNode K V}
    (hb : (σ.blocks node).map Block.deserialize = some (.leaf leaf)) :
    σ.step capacity key value = some (σ.insertLeaf capacity key value leaf parents) := by
  unfold step
  rw [hjob]
  dsimp only
  rw [hb]

theorem insertLeaf_kept {leaf left : LeafNode K V}
    (h : leaf.insertWithSplitSupport capacity key value σ.allocator.next = (left, none)) :
    σ.insertLeaf capacity key value leaf parents
      = (σ.write (.leaf left)).goto (.up none parents) := by
  unfold insertLeaf
  rw [h]

theorem insertLeaf_split {leaf left right : LeafNode K V} {boundary : K}
    (h : leaf.insertWithSplitSupport capacity key value σ.allocator.next
      = (left, some (right, boundary))) :
    σ.insertLeaf capacity key value leaf parents
      = ((σ.allocate.write (.leaf left)).write (.leaf right)).goto
          (.up (some ⟨.leaf left, .leaf right, boundary⟩) parents) := by
  unfold insertLeaf
  rw [h]

theorem step_inner (hjob : σ.job = .down node parents) {n : InnerNode K}
    (hb : (σ.blocks node).map Block.deserialize = some (.inner n)) :
    σ.step capacity key value = σ.visit key n parents := by
  unfold step
  rw [hjob]
  dsimp only
  rw [hb]

theorem visit_eq {n : InnerNode K} {k : K} {child : BlkAddress}
    (hslot : (Frame.toward key n).node.slots[(Frame.toward key n).position]? = some (k, child)) :
    σ.visit key n parents = some (σ.goto (.down child (Frame.toward key n :: parents))) := by
  unfold visit
  dsimp only
  rw [hslot]

theorem step_up (hjob : σ.job = .up none (p :: parents)) :
    σ.step capacity key value
      = some ((if p.node.modified then σ.write (.inner p.node) else σ).goto (.up none parents)) := by
  unfold step
  rw [hjob]

theorem step_top (hjob : σ.job = .up none []) :
    σ.step capacity key value = some (σ.goto .done) := by
  unfold step
  rw [hjob]

theorem step_split (hjob : σ.job = .up (some s) (p :: parents)) :
    σ.step capacity key value = σ.addSplit capacity s p parents := by
  unfold step
  rw [hjob]

theorem addSplit_room (hroom : p.node.size < capacity) :
    σ.addSplit capacity s p parents
      = some ((σ.write (.inner (p.node.insertInnerNode s.right.selfRep s.boundary
          (p.position + 1)))).goto (.up none parents)) := by
  unfold addSplit
  rw [if_pos hroom]

theorem addSplit_full {left right : InnerNode K} {boundary : K} {c : BlkAddress}
    {rest : List (K × BlkAddress)} (hroom : ¬ p.node.size < capacity)
    (hhalves : p.node.splitInsert capacity p.position s.right.selfRep s.boundary σ.allocator.next
      = (left, right)) (hslots : right.slots = (boundary, c) :: rest) :
    σ.addSplit capacity s p parents
      = some (((σ.allocate.write (.inner left)).write (.inner right)).goto
          (.up (some ⟨.inner left, .inner right, boundary⟩) parents)) := by
  unfold addSplit
  rw [if_neg hroom]
  dsimp only
  rw [hhalves]
  dsimp only
  rw [hslots]

theorem step_root (hjob : σ.job = .up (some s) []) :
    σ.step capacity key value = σ.newRoot s := by
  unfold step
  rw [hjob]

omit [LinearOrder K] in
theorem newRoot_eq {kl kr : K} (hkl : s.left.getLeftmostKey = some kl)
    (hkr : s.right.getLeftmostKey = some kr) :
    σ.newRoot s = some { σ.allocate.write (.inner (InnerNode.ofChildren σ.allocator.next
      (kl, s.left.selfRep) (kr, s.right.selfRep)).markModified) with
        root := σ.allocator.next
        depth := σ.depth + 1
        job := .done } := by
  unfold newRoot
  rw [hkl, hkr]
  rfl

theorem step_done (hjob : σ.job = .done) : σ.step capacity key value = none := by
  unfold step
  rw [hjob]

end StepEqs

/-- `τ` is the end of the insertion, `n` steps after `σ`. -/
inductive Ends (capacity : Nat) (key : K) (value : V) : Nat → Machine K V → Machine K V → Prop
  | done {σ : Machine K V} : σ.job = .done → Ends capacity key value 0 σ σ
  | step {n : Nat} {σ σ' τ : Machine K V} : step capacity key value σ = some σ' →
      Ends capacity key value n σ' τ → Ends capacity key value (n + 1) σ τ

/-! ## §2. One end. -/

section Ends

variable {capacity : Nat} {key : K} {value : V} {n : Nat} {σ σ' τ : Machine K V}

/-- The machine takes the step that leads to its end. -/
theorem Ends.next (h : Ends capacity key value n σ τ)
    (hs : σ.step capacity key value = some σ') :
    ∃ k, n = k + 1 ∧ Ends capacity key value k σ' τ := by
  cases h with
  | done hd =>
      rw [step_done hd] at hs
      cases hs
  | step hs' h =>
      rw [hs'] at hs
      cases hs
      exact ⟨_, rfl, h⟩

theorem Ends.eq_of_done (h : Ends capacity key value n σ τ) (hd : σ.job = .done) : τ = σ := by
  cases h with
  | done _ => rfl
  | step hs _ =>
      rw [step_done hd] at hs
      cases hs

/-- The machine gets from `σ` to `σ'`. -/
def Reach (capacity : Nat) (key : K) (value : V) : Machine K V → Machine K V → Prop :=
  Relation.ReflTransGen (fun σ σ' => step capacity key value σ = some σ')

theorem Reach.ends (hr : Reach capacity key value σ σ') (h : Ends capacity key value n σ' τ) :
    ∃ k, Ends capacity key value k σ τ := by
  induction hr using Relation.ReflTransGen.head_induction_on with
  | refl => exact ⟨n, h⟩
  | head hs _ ih =>
      obtain ⟨k, hk⟩ := ih
      exact ⟨k + 1, .step hs hk⟩

end Ends

end Machine

/-! ## §3. Copies. -/

section Copies

variable {K : Type*} [LinearOrder K]

theorem Frame.toward_of_nonneg {key : K} {n : InnerNode K} (h : ¬ n.locateChildIndex key < 0) :
    Frame.toward key n = ⟨n, (n.locateChildIndex key).toNat⟩ := by
  unfold Frame.toward
  dsimp only
  rw [if_neg h]

/-- Lowering the first key changes no child. -/
theorem Frame.toward_node (key : K) (n : InnerNode K) :
    (Frame.toward key n).node.selfRep = n.selfRep
      ∧ (Frame.toward key n).node.slots.map Prod.snd = n.slots.map Prod.snd := by
  unfold Frame.toward
  dsimp only
  split
  · refine ⟨rfl, ?_⟩
    unfold InnerNode.setFirstKey
    cases n.slots with
    | nil => rfl
    | cons s rest => rfl
  · exact ⟨rfl, rfl⟩

end Copies

/-! ## §4. The way through the tree. -/

section Way

variable {K : Type*} {G : Plan K BlkAddress} {root node : BlkAddress} {parents : List (Frame K)}

/-- The addresses of the copies. -/
def ids (parents : List (Frame K)) : List BlkAddress := parents.map (fun p => p.node.selfRep)

/-- `node` is below the nodes of `parents`, the last of which is the root. -/
def Under (G : Plan K BlkAddress) (root : BlkAddress) : BlkAddress → List (Frame K) → Prop
  | node, [] => node = root ∧ ∃ sp, G node = some sp
  | node, p :: parents =>
      (∃ sp sc, G p.node.selfRep = some sp ∧ G node = some sc ∧ sc.level < sp.level)
        ∧ Under G root p.node.selfRep parents

theorem Under.plan (h : Under G root node parents) : ∃ sp, G node = some sp := by
  cases parents with
  | nil => exact h.2
  | cons p parents =>
      obtain ⟨⟨sp, sc, -, hc, -⟩, -⟩ := h
      exact ⟨sc, hc⟩

theorem Under.level_lt (h : Under G root node parents) {sc : Span K} (hc : G node = some sc) :
    ∀ x ∈ ids parents, ∃ sp, G x = some sp ∧ sc.level < sp.level := by
  induction parents generalizing node sc with
  | nil => exact fun x hx => absurd hx List.not_mem_nil
  | cons p parents ih =>
      obtain ⟨⟨sp, sc', hp, hc', hlt⟩, hup⟩ := h
      rw [hc] at hc'
      cases hc'
      intro x hx
      rcases List.mem_cons.1 hx with rfl | hx
      · exact ⟨sp, hp, hlt⟩
      · obtain ⟨sp', hx', hlt'⟩ := ih hup hp x hx
        exact ⟨sp', hx', hlt.trans hlt'⟩

/-- A node is not above itself. -/
theorem Under.not_mem (h : Under G root node parents) : node ∉ ids parents := by
  intro hm
  obtain ⟨sc, hc⟩ := h.plan
  obtain ⟨sp, hp, hlt⟩ := h.level_lt hc node hm
  rw [hc] at hp
  cases hp
  exact absurd hlt (lt_irrefl _)

theorem Under.root_mem (h : Under G root node parents) (hne : parents ≠ []) :
    root ∈ ids parents := by
  induction parents generalizing node with
  | nil => exact absurd rfl hne
  | cons p parents ih =>
      cases parents with
      | nil => exact List.mem_singleton.2 h.2.1.symm
      | cons q parents => exact List.mem_cons_of_mem _ (ih h.2 (List.cons_ne_nil _ _))

/-- The root is the node without parents. -/
theorem Under.eq_root_iff (h : Under G root node parents) : node = root ↔ parents = [] := by
  constructor
  · intro heq
    by_contra hne
    exact h.not_mem (heq ▸ h.root_mem hne)
  · rintro rfl
    exact h.1

end Way

/-! ## §5. What the machine needs. -/

namespace Machine

variable {K V : Type*} [LinearOrder K]

/-- The blocks are still those of the tree on the way down; the copies are not too
large, and both halves of a split have keys. -/
def JobOk (cap : Nat) (G : Plan K BlkAddress) (σ : Machine K V) : Job K V → Prop
  | .down node parents =>
      (∃ κ, Tree (fun a => (σ.blocks a).map Block.shape) G [(κ, σ.root)] σ.depth)
        ∧ BlocksOk cap σ.blocks ∧ Under G σ.root node parents
        ∧ ∀ p ∈ parents, p.node.size ≤ cap
  | .up split parents =>
      (∃ node, Under G σ.root node parents ∧ ∀ s ∈ split, s.left.selfRep = node)
        ∧ (∀ p ∈ parents, p.node.size ≤ cap)
        ∧ ∀ s ∈ split, s.left.getLeftmostKey ≠ none ∧ s.right.getLeftmostKey ≠ none
  | .done => True

structure Ok (cap : Nat) (G : Plan K BlkAddress) (σ : Machine K V) : Prop where
  allocator : σ.allocator.Ok
  used : ∀ x sp, G x = some sp → ¬ σ.allocator.Free x
  job : σ.JobOk cap G σ.job

variable {cap : Nat} {G : Plan K BlkAddress} {σ σ' : Machine K V} {key : K} {value : V}

/-- An insertion starts at the root of a stored tree. -/
theorem ok_of_stored {blocks : BlkAddress → Option (Block K V)} {allocator : Allocator}
    {root : BlkAddress} {depth : Nat} {m : K → Option V}
    (h : Stored cap blocks allocator root depth m) :
    ∃ G, Ok cap G ⟨blocks, allocator, root, depth, .down root []⟩ := by
  obtain ⟨G, κ, ht, -, hfree⟩ := h.tree
  obtain ⟨lo, hi, hroot, -⟩ := ht.top.mem (List.mem_singleton.2 rfl)
  refine ⟨G, h.allocator, fun x sp hx hf => ?_, ⟨κ, ht⟩, h.blocks, ⟨rfl, _, hroot⟩, by simp⟩
  rw [hfree x hf] at hx
  cases hx

/-- Allocation leaves the addresses in use alone. -/
theorem Ok.used_allocate (h : σ.Ok cap G) :
    ∀ x sp, G x = some sp → ¬ σ.allocator.allocate.Free x :=
  fun x sp hx hf => h.used x sp hx (h.allocator.free_allocate.1 hf).1

/-! ## §6. A step keeps it. -/

/-- The block of the node that comes next. -/
theorem Ok.block (h : σ.Ok cap G) {node : BlkAddress} {parents : List (Frame K)}
    (hjob : σ.job = .down node parents) : ∃ b, σ.blocks node = some b := by
  obtain ⟨-, -, hok⟩ := h
  rw [hjob] at hok
  obtain ⟨⟨κ, ht⟩, -, hunder, -⟩ := hok
  obtain ⟨sp, hG⟩ := hunder.plan
  obtain ⟨sh, hE, -⟩ := ht.node hG
  obtain ⟨b, hb, -⟩ := Option.map_eq_some_iff.1 hE
  exact ⟨b, hb⟩

/-- The node that is read: it has the address it was read from, and is unmodified. -/
theorem Ok.read (h : σ.Ok cap G) {node : BlkAddress} {parents : List (Frame K)}
    (hjob : σ.job = .down node parents) {n : Node K V}
    (hb : (σ.blocks node).map Block.deserialize = some n) :
    n.selfRep = node ∧ n.size ≤ cap ∧ n.modified = false
      ∧ (σ.blocks node).map Block.shape = some n.shape := by
  have hok := h.job
  rw [hjob] at hok
  obtain ⟨b, hblock, rfl⟩ := Option.map_eq_some_iff.1 hb
  obtain ⟨hself, hsize⟩ := hok.2.1 node b hblock
  refine ⟨hself, hsize, ?_, ?_⟩
  · cases b with
    | leaf rep sib es => rfl
    | inner rep slots => rfl
  · rw [hblock]
    rfl

/-- What is left of the way up after the leaf was written. -/
theorem Ok.insertLeaf (h : σ.Ok cap G) (hcap : 2 ≤ cap) {node : BlkAddress}
    {parents : List (Frame K)} (hjob : σ.job = .down node parents) {leaf : LeafNode K V}
    (hb : (σ.blocks node).map Block.deserialize = some (.leaf leaf)) :
    (σ.insertLeaf cap key value leaf parents).Ok cap G := by
  have hok := h.job
  rw [hjob] at hok
  obtain ⟨⟨κ, ht⟩, hblocks, hunder, hsize⟩ := hok
  obtain ⟨sp, hG⟩ := hunder.plan
  obtain ⟨hself, hfit, -, hE⟩ := h.read hjob hb
  have hsorted := (ht.leafOk hG hE).sorted
  rcases leaf.insertWithSplitSupport_cases key value hsorted hcap hfit σ.allocator.next with
    ⟨heq, -⟩ | ⟨L, b, v, R, heq, -, hL, -⟩
  · rw [insertLeaf_kept heq]
    exact ⟨h.allocator, h.used, ⟨node, hunder, by simp⟩, hsize, by simp⟩
  · rw [insertLeaf_split heq]
    refine ⟨h.allocator.allocate, h.used_allocate, ⟨node, hunder, fun s hs => ?_⟩, hsize,
      fun s hs => ?_⟩
    · rw [← Option.some.inj hs]
      exact hself
    · obtain ⟨e, L, rfl⟩ := List.exists_cons_of_ne_nil hL
      rw [← Option.some.inj hs]
      exact ⟨Option.some_ne_none _, Option.some_ne_none _⟩

/-- The child is one level down. -/
theorem Ok.child (h : σ.Ok cap G) {node child : BlkAddress} {parents : List (Frame K)}
    (hjob : σ.job = .down node parents) {n : InnerNode K} {k : K}
    (hb : (σ.blocks node).map Block.deserialize = some (.inner n))
    (hslot : (Frame.toward key n).node.slots[(Frame.toward key n).position]? = some (k, child)) :
    ∃ sp sc, G node = some sp ∧ G child = some sc ∧ sc.level + 1 = sp.level := by
  have hok := h.job
  rw [hjob] at hok
  obtain ⟨⟨κ, ht⟩, -, hunder, -⟩ := hok
  obtain ⟨sp, hG⟩ := hunder.plan
  obtain ⟨-, -, -, hE⟩ := h.read hjob hb
  obtain ⟨-, hchildren⟩ := Frame.toward_node key n
  have hm : child ∈ n.slots.map Prod.snd := by
    rw [← hchildren]
    exact List.mem_map_of_mem (List.mem_of_getElem? hslot)
  obtain ⟨⟨k, c⟩, hs, rfl⟩ := List.mem_map.1 hm
  obtain ⟨sc, hc, hlevel, -⟩ := ht.child hG hE hs
  exact ⟨sp, sc, hG, hc, hlevel⟩

/-- The child is there, and can be visited. -/
theorem Ok.visit (h : σ.Ok cap G) {node : BlkAddress} {parents : List (Frame K)}
    (hjob : σ.job = .down node parents) {n : InnerNode K}
    (hb : (σ.blocks node).map Block.deserialize = some (.inner n)) (key : K) :
    ∃ k child, (Frame.toward key n).node.slots[(Frame.toward key n).position]? = some (k, child)
      ∧ (Frame.toward key n).node.selfRep = node
      ∧ (σ.goto (.down child (Frame.toward key n :: parents))).Ok cap G := by
  have hok := h.job
  rw [hjob] at hok
  obtain ⟨⟨κ, ht⟩, hblocks, hunder, hsize⟩ := hok
  obtain ⟨sp, hG⟩ := hunder.plan
  obtain ⟨hself, hfit, -, hE⟩ := h.read hjob hb
  have hin := ht.innerOk hG hE
  obtain ⟨hrep, hchildren⟩ := Frame.toward_node key n
  have hlength : (Frame.toward key n).node.slots.length = n.slots.length := by
    rw [← List.length_map Prod.snd, hchildren, List.length_map]
  have hlt := InnerNode.locateChildIndex_lt_length hin.sorted hin.covers.ne_nil key
  obtain ⟨⟨k, child⟩, hslot⟩ :
      ∃ s, (Frame.toward key n).node.slots[(Frame.toward key n).position]? = some s :=
    ⟨_, List.getElem?_eq_getElem (hlength ▸ hlt)⟩
  obtain ⟨sp, sc, hp, hc, hlevel⟩ := h.child hjob hb hslot
  have hnode : (Frame.toward key n).node.selfRep = node := hrep.trans hself
  refine ⟨k, child, hslot, hnode, h.allocator, h.used, ⟨κ, ht⟩, hblocks,
    ⟨⟨sp, sc, ?_, hc, Nat.lt_of_succ_le hlevel.le⟩, ?_⟩, fun p hp => ?_⟩
  · rw [hnode]
    exact hp
  · rw [hnode]
    exact hunder
  · rcases List.mem_cons.1 hp with rfl | hp
    · exact hlength.trans_le hfit
    · exact hsize p hp

/-- A copy of a parent is written, or left. -/
theorem Ok.flush (h : σ.Ok cap G) {p : Frame K} {parents : List (Frame K)}
    (hjob : σ.job = .up none (p :: parents)) :
    ((if p.node.modified then σ.write (.inner p.node) else σ).goto (.up none parents)).Ok cap G := by
  have hok := h.job
  rw [hjob] at hok
  obtain ⟨⟨node, hunder, -⟩, hsize, -⟩ := hok
  have hsize' : ∀ q ∈ parents, q.node.size ≤ cap := fun q hq => hsize q (List.mem_cons_of_mem _ hq)
  split
  · exact ⟨h.allocator, h.used, ⟨_, hunder.2, by simp⟩, hsize', by simp⟩
  · exact ⟨h.allocator, h.used, ⟨_, hunder.2, by simp⟩, hsize', by simp⟩

/-- A parent takes the new slot, or is split in turn. -/
theorem Ok.addSplit (h : σ.Ok cap G) (hcap : 2 ≤ cap) {s : Split K V} {p : Frame K}
    {parents : List (Frame K)} (hjob : σ.job = .up (some s) (p :: parents)) :
    ∃ σ', σ.addSplit cap s p parents = some σ' ∧ σ'.Ok cap G := by
  have hok := h.job
  rw [hjob] at hok
  obtain ⟨⟨node, hunder, -⟩, hsize, -⟩ := hok
  have hsize' : ∀ q ∈ parents, q.node.size ≤ cap := fun q hq => hsize q (List.mem_cons_of_mem _ hq)
  by_cases hroom : p.node.size < cap
  · exact ⟨_, addSplit_room hroom,
      h.allocator, h.used, ⟨_, hunder.2, by simp⟩, hsize', by simp⟩
  · have hfull : p.node.size = cap := le_antisymm (hsize p List.mem_cons_self) (not_lt.1 hroom)
    have hflags := InnerNode.splitInsert_flags cap p.node p.position s.right.selfRep s.boundary
      σ.allocator.next
    obtain ⟨hleft, hright⟩ := InnerNode.splitInsert_ne_nil hcap hfull p.position s.right.selfRep s.boundary
      σ.allocator.next
    obtain ⟨⟨b, c⟩, rest, hslots⟩ := List.exists_cons_of_ne_nil hright
    refine ⟨_, addSplit_full hroom rfl hslots, h.allocator.allocate, h.used_allocate,
      ⟨_, hunder.2, fun t ht => ?_⟩, hsize', fun t ht => ?_⟩
    · rw [← Option.some.inj ht]
      exact hflags.1
    · rw [← Option.some.inj ht]
      exact ⟨Node.getLeftmostKey_inner hleft, Node.getLeftmostKey_inner hright⟩

/-- A root that was split gets a parent. -/
theorem Ok.newRoot (h : σ.Ok cap G) {s : Split K V} (hjob : σ.job = .up (some s) []) :
    ∃ σ', σ.newRoot s = some σ' ∧ σ'.Ok cap G := by
  have hok := h.job
  rw [hjob] at hok
  obtain ⟨hleft, hright⟩ := hok.2.2 s rfl
  obtain ⟨kl, hkl⟩ := Option.ne_none_iff_exists'.1 hleft
  obtain ⟨kr, hkr⟩ := Option.ne_none_iff_exists'.1 hright
  exact ⟨_, newRoot_eq hkl hkr, h.allocator.allocate, h.used_allocate, trivial⟩

/-- **A step is always possible, and keeps what the machine needs.** -/
theorem Ok.step (h : σ.Ok cap G) (hcap : 2 ≤ cap) (hjob : σ.job ≠ .done) :
    ∃ σ', σ.step cap key value = some σ' ∧ σ'.Ok cap G := by
  cases hj : σ.job with
  | down node parents =>
      obtain ⟨b, hb⟩ := h.block hj
      have hmap : (σ.blocks node).map Block.deserialize = some b.deserialize := by
        rw [hb, Option.map_some]
      cases hn : b.deserialize with
      | leaf leaf =>
          rw [hn] at hmap
          exact ⟨_, step_leaf hj hmap, h.insertLeaf hcap hj hmap⟩
      | inner n =>
          rw [hn] at hmap
          obtain ⟨k, child, hslot, -, hok⟩ := h.visit hj hmap key
          exact ⟨_, (step_inner hj hmap).trans (visit_eq hslot), hok⟩
  | up split parents =>
      cases split with
      | none =>
          cases parents with
          | nil => exact ⟨_, step_top hj, h.allocator, h.used, trivial⟩
          | cons p parents => exact ⟨_, step_up hj, h.flush hj⟩
      | some s =>
          cases parents with
          | nil =>
              obtain ⟨σ', hs, hok⟩ := h.newRoot hj
              exact ⟨σ', (step_root hj).trans hs, hok⟩
          | cons p parents =>
              obtain ⟨σ', hs, hok⟩ := h.addSplit hcap hj
              exact ⟨σ', (step_split hj).trans hs, hok⟩
  | done => exact absurd hj hjob

theorem Ok.next (h : σ.Ok cap G) (hcap : 2 ≤ cap) (hs : σ.step cap key value = some σ') :
    σ'.Ok cap G := by
  have hjob : σ.job ≠ .done := by
    intro hd
    rw [step_done hd] at hs
    cases hs
  obtain ⟨σ'', hs', hok⟩ := h.step hcap hjob
  rw [hs] at hs'
  cases hs'
  exact hok

theorem Ok.reach (h : σ.Ok cap G) (hcap : 2 ≤ cap) (hr : σ.Reach cap key value σ') :
    σ'.Ok cap G := by
  induction hr with
  | refl => exact h
  | tail _ hs ih => exact ih.next hcap hs

/-! ## §7. On the way to its end. -/

/-- The machine is `n` steps from its end `τ`. -/
structure Leads (cap : Nat) (G : Plan K BlkAddress) (key : K) (value : V) (τ : Machine K V)
    (n : Nat) (σ : Machine K V) : Prop where
  ends : Ends cap key value n σ τ
  ok : σ.Ok cap G

variable {τ : Machine K V} {n : Nat}

theorem Leads.next (h : Leads cap G key value τ n σ) (hcap : 2 ≤ cap)
    (hs : σ.step cap key value = some σ') : ∃ k, n = k + 1 ∧ Leads cap G key value τ k σ' := by
  obtain ⟨k, hk, hends⟩ := h.ends.next hs
  exact ⟨k, hk, hends, h.ok.next hcap hs⟩

theorem Leads.visit (h : Leads cap G key value τ n σ) (hcap : 2 ≤ cap) {node child : BlkAddress}
    {parents : List (Frame K)} (hjob : σ.job = .down node parents) {x : InnerNode K} {k : K}
    (hb : (σ.blocks node).map Block.deserialize = some (.inner x))
    (hslot : (Frame.toward key x).node.slots[(Frame.toward key x).position]? = some (k, child)) :
    ∃ k, n = k + 1
      ∧ Leads cap G key value τ k (σ.goto (.down child (Frame.toward key x :: parents))) :=
  h.next hcap ((step_inner hjob hb).trans (visit_eq hslot))

/-- Nothing is written on the way up past copies that did not change. -/
theorem Leads.eq_of_unmodified {parents : List (Frame K)}
    (hmod : ∀ p ∈ parents, p.node.modified = false) :
    ∀ {n : Nat} {σ : Machine K V}, Leads cap G key value τ n σ → 2 ≤ cap →
      σ.job = .up none parents → τ = σ.goto .done := by
  induction parents with
  | nil =>
      intro n σ h hcap hjob
      obtain ⟨k, -, hk⟩ := h.next hcap (step_top hjob)
      exact hk.ends.eq_of_done rfl
  | cons p parents ih =>
      intro n σ h hcap hjob
      have hs : σ.step cap key value = some (σ.goto (.up none parents)) := by
        rw [step_up hjob, hmod p List.mem_cons_self]
        rfl
      obtain ⟨k, -, hk⟩ := h.next hcap hs
      have hrest := ih (fun q hq => hmod q (List.mem_cons_of_mem _ hq)) hk hcap
      exact hrest rfl

end Machine

end Alone

end NvmTree
