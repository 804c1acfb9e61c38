/-
  NvmTree.Concurrent.LeafLocks — who writes a leaf holds its lock.

  An optimistic insertion takes the write lock where the height it has read, counted
  down on the way, is 1.  If it has read the height before the root id, and the root
  was split in between, it counts from a height that is too small: it write-locks the
  parent of the leaf and reads the leaf under a read lock (`leaf_written_in_read_mode`).

  Main result: `leaf_written_locked` — while each height is that of the tree when the
  root id is read, a leaf is written only by the holder of its write lock, apart from
  the first write of the right half of a split leaf, whose address nobody else has.
-/
import NvmTree.Concurrent.Linearizable

namespace NvmTree

open RangeTree Linearize

namespace ConcurrentBPlusTree

variable {T K V : Type*} [DecidableEq T] [LinearOrder K]

/-! ## §1. What a step writes. -/

/-- The block the next step of an insertion writes, and where; `next` is the address the
allocator would give. -/
def InsertPc.writes (capacity : Nat) (next : BlkAddress) (key : K) (value : V) :
    InsertPc K V → Option (BlkAddress × Block K V)
  | .optWrite node n => some (node, n.serialize)
  | .leaf _ _ _ n =>
      match n.insertWithSplitSupport capacity key value next with
      | (n, none) => some (n.selfRep, n.serialize)
      | (_, some _) => none
  | .writeLeft node _ _ left _ _ => some (leftAddress node left, left.serialize)
  | .writeRight _ _ _ _ right _ => some (right.selfRep, right.serialize)
  | .writeRoot _ _ _ _ new_inner_node => some (new_inner_node.selfRep, new_inner_node.serialize V)
  | .writeBack f _ => some (f.current_node_id, f.inner_node.serialize V)
  | _ => none

def Action.writes (capacity : Nat) (s : State T K V) :
    Action T K V → Option (BlkAddress × Block K V)
  | .run t =>
      match s.threads t with
      | .inserting _ key value pc => pc.writes capacity s.allocator.next key value
      | _ => none
  | _ => none

/-- The blocks after a write. -/
def written (blocks : BlkAddress → Option (Block K V)) :
    Option (BlkAddress × Block K V) → BlkAddress → Option (Block K V)
  | none => blocks
  | some (a, b) => Function.update blocks a (some b)

variable {cap : Nat} {m₀ m : K → Option V} {s s' : State T K V} {E : Store K V BlkAddress}
  {G : Plan K BlkAddress} {order : List (Nat × Op K V × Answer V)} {t : T}

omit [LinearOrder K] in
theorem acquire_blocks {node : BlkAddress} {type : LockType} {th : Thread K V}
    (h : s.acquire t node type th = some s') : s'.blocks = s.blocks := by
  unfold State.acquire at h
  split at h
  · cases h
    rfl
  · cases h

theorem searchStep_blocks {id : Nat} {key : K} {pc : SearchPc V}
    (hstep : searchStep s t id key pc = some s') : s'.blocks = s.blocks := by
  cases pc with
  | lock node is_root parent => exact acquire_blocks hstep
  | read node =>
      rw [searchStep] at hstep
      split at hstep
      · cases hstep
      · cases hstep
        rfl
      · dsimp only at hstep
        split at hstep
        · cases hstep
          rfl
        · split at hstep
          · cases hstep
          · cases hstep
            rfl
  | _ =>
      cases hstep
      rfl

theorem insertStep_blocks {id : Nat} {key : K} {value : V} {pc : InsertPc K V}
    (hstep : insertStep cap s t id key value pc = some s') :
    s'.blocks = written s.blocks (pc.writes cap s.allocator.next key value) := by
  cases pc with
  | optRoot height => cases hstep
  | optLock node depth is_root parent => exact acquire_blocks hstep
  | lock node is_root parents => exact acquire_blocks hstep
  | optRead node depth =>
      rw [insertStep, optStep] at hstep
      split at hstep
      · cases hstep
      · split at hstep
        all_goals
          cases hstep
          rfl
      · dsimp only at hstep
        split at hstep
        · cases hstep
          rfl
        · split at hstep
          · cases hstep
          · cases hstep
            rfl
  | read node is_root parents =>
      rw [insertStep, readStep] at hstep
      split at hstep
      · cases hstep
      · cases hstep
        rfl
      · dsimp only at hstep
        split at hstep
        · cases hstep
        · cases hstep
          rfl
  | leaf node is_root parents leaf =>
      rw [insertStep] at hstep
      unfold InsertPc.writes
      dsimp only at hstep ⊢
      split at hstep
      · next heq =>
          cases hstep
          rw [heq]
          rfl
      · next heq =>
          cases hstep
          rw [heq]
          rfl
  | newRoot node left right b =>
      rw [insertStep] at hstep
      dsimp only at hstep
      split at hstep
      · cases hstep
        rfl
      · cases hstep
  | inner f parents split =>
      rw [insertStep] at hstep
      split at hstep
      · cases hstep
      · cases hstep
        rfl
  | _ =>
      cases hstep
      rfl

/-- **A step writes the block it is said to write**, and no other. -/
theorem step_blocks {a : Action T K V} (hstep : step cap s a = some s') :
    s'.blocks = written s.blocks (a.writes cap s) := by
  cases a with
  | run t =>
      rw [step] at hstep
      unfold Action.writes
      dsimp only
      split at hstep
      · cases hstep
      · next ht =>
          rw [ht]
          exact searchStep_blocks hstep
      · next ht =>
          rw [ht]
          exact insertStep_blocks hstep
  | invoke t op =>
      rw [step] at hstep
      split at hstep
      · cases hstep
        rfl
      · cases hstep
  | heightFirst t =>
      rw [step] at hstep
      split at hstep
      · cases hstep
        rfl
      · cases hstep
  | rootAfter t =>
      rw [step] at hstep
      split at hstep
      · cases hstep
        rfl
      · cases hstep

/-! ## §2. Under which lock. -/

omit [LinearOrder K] in
/-- A node that a thread writes and that is not new is locked in write mode. -/
theorem lockOf_of_writes {node : BlkAddress} (h : (s.world E G).Writes t node)
    (hfresh : node ∉ (s.threads t).fresh) : s.locks.lockOf t node = some .write := by
  have hmode : s.mode t node = some .write := h
  unfold State.mode at hmode
  rwa [if_neg hfresh] at hmode

/-- The thread is about to write the new right half of a split node, at `x`. -/
def Thread.WritesSibling (x : BlkAddress) : Thread K V → Prop
  | .inserting _ _ _ (.writeRight _ _ _ _ right _) => x = right.selfRep
  | _ => False

/-- **Who writes a block holds its lock in write mode**, or has just allocated it, for the
right half of a split node or a new root: then nobody has a lock on it. -/
theorem Inv.writes_locked (h : Inv cap m₀ s E G m order) {id : Nat} {key : K} {value : V}
    {pc : InsertPc K V} (ht : s.threads t = .inserting id key value pc) {x : BlkAddress}
    {b : Block K V} (hw : pc.writes cap s.allocator.next key value = some (x, b)) :
    s.locks.lockOf t x = some .write
      ∨ ((s.threads t).WritesSibling x ∨ ∃ slots, b = .inner x slots)
        ∧ ∀ u, s.locks.lockOf u x = none := by
  have hk : InsertOk cap (s.world E G) t key value pc := by
    have := h.know t
    rw [ht] at this
    exact this
  have hnew : ∀ y ∈ pc.fresh, ∀ u, s.locks.lockOf u y = none := by
    intro y hy u
    by_contra hne
    obtain ⟨-, sp, hsp⟩ := h.locked u y hne
    have hnone : G y = none := (h.know t).fresh (by rw [ht]; exact hy)
    cases hnone.symm.trans hsp
  have hold : ∀ {y}, (s.world E G).Writes t y → y ∉ pc.fresh → s.locks.lockOf t y = some .write :=
    fun hy hn => lockOf_of_writes hy (by rw [ht]; exact hn)
  cases pc with
  | optWrite node leaf =>
      cases hw
      exact .inl (hold hk.2.2.1 List.not_mem_nil)
  | leaf node is_root parents leaf =>
      rw [InsertPc.writes] at hw
      split at hw
      · next leaf' heq =>
          cases hw
          rw [LeafNode.insertWithSplitSupport_selfRep heq]
          obtain ⟨hdesc, -, hrep, -⟩ := hk
          exact .inl (hold (hrep ▸ hdesc.writes) List.not_mem_nil)
      · cases hw
  | writeLeft node is_root parents left right boundary_key =>
      cases hw
      have hnode : leftAddress node left = node ∧ (s.world E G).Writes t node
          ∧ ∃ sp, G node = some sp := by
        cases left with
        | leaf left => exact ⟨hk.1.left_rep, hk.2.2.2.1, hk.1.path.plan h.ok⟩
        | inner left => exact ⟨rfl, hk.2.writes, hk.1.path.plan h.ok⟩
      obtain ⟨heq, hwrites, sp, hsp⟩ := hnode
      rw [heq]
      refine .inl (hold hwrites fun hmem => ?_)
      have hnone : G node = none := (h.know t).fresh (by rw [ht]; exact hmem)
      cases hnone.symm.trans hsp
  | writeRight node is_root parents left right boundary_key =>
      cases hw
      refine .inr ⟨.inl ?_, hnew _ (List.mem_singleton.2 rfl)⟩
      rw [ht]
      rfl
  | writeRoot node left right boundary_key new_inner_node =>
      cases hw
      have hmem : new_inner_node.selfRep ∈ [right.selfRep, new_inner_node.selfRep] := by simp
      exact .inr ⟨.inr ⟨_, rfl⟩, hnew _ hmem⟩
  | writeBack f parents =>
      cases hw
      exact .inl (hold hk.1 List.not_mem_nil)
  | _ => cases hw

/-- **A leaf is written under its write lock.**  After any run in which each height that
was read before the root id is that of the tree when the root id is read, a step that
writes a leaf is one of a thread that holds the lock of that leaf in write mode, or it
is the first write of the right half of a split node, on which nobody has a lock. -/
theorem leaf_written_locked (hcap : 2 ≤ cap) {blocks : BlkAddress → Option (Block K V)}
    {allocator : Allocator} {root : BlkAddress} {depth : Nat}
    (hstored : Stored cap blocks allocator root depth m₀) (as : List (Action T K V))
    (hcur : CurrentRun cap (start blocks allocator root depth) as) (s : State T K V)
    (hrun : run cap (start blocks allocator root depth) as = some s) (a : Action T K V)
    (s' : State T K V) (hstep : step cap s a = some s') :
    s'.blocks = written s.blocks (a.writes cap s)
      ∧ ∀ x rep sib es, a.writes cap s = some (x, .leaf rep sib es) → ∃ t, a = .run t
        ∧ (s.locks.lockOf t x = some .write
          ∨ (s.threads t).WritesSibling x ∧ ∀ u, s.locks.lockOf u x = none) := by
  obtain ⟨E, G, m, order, h⟩ := run_sound hcap (start_sound hstored) hcur hrun
  refine ⟨step_blocks hstep, fun x rep sib es hw => ?_⟩
  cases a with
  | run t =>
      refine ⟨t, rfl, ?_⟩
      unfold Action.writes at hw
      dsimp only at hw
      split at hw
      · next id key value pc ht =>
          exact (h.writes_locked ht hw).imp_right fun hnew => ⟨hnew.1.resolve_right (by simp), hnew.2⟩
      · cases hw
  | _ => cases hw

/-- An insertion that reads the height first, with nobody else there. -/
def heightFirstAlone : List (Action Bool Nat Nat) :=
  [.invoke false (.insert 10 1), .run false, .heightFirst false, .rootAfter false] ++ steps 3 false

/-- It writes the root, a leaf. -/
theorem leaf_written_locked_alone :
    ∃ s s', run 2 init heightFirstAlone = some s ∧ step 2 s (.run false) = some s'
      ∧ Action.writes 2 s (.run false) = some (0, .leaf 0 none [(10, 1)])
      ∧ s'.blocks = written s.blocks (some (0, .leaf 0 none [(10, 1)]))
      ∧ ∃ t, Action.run false = (Action.run t : Action Bool Nat Nat)
        ∧ (s.locks.lockOf t 0 = some .write
          ∨ (s.threads t).WritesSibling 0 ∧ ∀ u, s.locks.lockOf u 0 = none) := by
  have hrun : (run 2 init heightFirstAlone).map (fun s => ((step 2 s (.run false)).isSome,
      Action.writes 2 s (.run false))) = some (true, some (0, .leaf 0 none [(10, 1)])) := by
    decide +kernel
  obtain ⟨s, hs, heq⟩ := Option.map_eq_some_iff.1 hrun
  obtain ⟨hsome, hw⟩ := Prod.mk.inj heq
  obtain ⟨s', hs'⟩ := Option.isSome_iff_exists.1 hsome
  obtain ⟨hblocks, hlock⟩ := leaf_written_locked le_rfl (Stored.single 2 0) heightFirstAlone
    (by decide +kernel) s hs (.run false) s' hs'
  exact ⟨s, s', hs, hs', hw, hw ▸ hblocks, hlock _ _ _ _ hw⟩

/-- The root is split between the two reads of an insertion that reads the height first. -/
def splitBetweenReads : List (Action Bool Nat Nat) :=
  [.invoke false (.insert 10 1)] ++ steps 9 false ++ [.invoke false (.insert 20 2)]
    ++ steps 9 false ++ [.invoke false (.insert 15 4), .run false, .heightFirst false,
      .invoke true (.insert 30 3)] ++ steps 19 true ++ [.rootAfter false] ++ steps 6 false

/-- It goes on to write a leaf of the tree that it has locked in read mode. -/
theorem leaf_written_in_read_mode :
    ∃ s s', run 2 init splitBetweenReads = some s ∧ step 2 s (.run false) = some s'
      ∧ Action.writes 2 s (.run false) = some (0, .leaf 0 (some 1) [(10, 1), (15, 4)])
      ∧ s.locks.lockOf false 0 = some .read
      ∧ s.root = 2 ∧ s.blocks 2 = some (.inner 2 [(10, 0), (20, 1)]) := by
  have hrun : (run 2 init splitBetweenReads).map (fun s => decide ((step 2 s (.run false)).isSome
      ∧ Action.writes 2 s (.run false) = some (0, .leaf 0 (some 1) [(10, 1), (15, 4)])
      ∧ s.locks.lockOf false 0 = some .read
      ∧ s.root = 2 ∧ s.blocks 2 = some (.inner 2 [(10, 0), (20, 1)]))) = some true := by
    decide +kernel
  obtain ⟨s, hs, heq⟩ := Option.map_eq_some_iff.1 hrun
  obtain ⟨hsome, hw, hlock, hroot, hblock⟩ := of_decide_eq_true heq
  obtain ⟨s', hs'⟩ := Option.isSome_iff_exists.1 hsome
  exact ⟨s, s', hs, hs', hw, hlock, hroot, hblock⟩

end ConcurrentBPlusTree

end NvmTree
