/-
  NvmTree.Alone.Disk — `VanillaBPlusTree::insert` over blocks, as the machine.

  An activation of `insert_with_split_support` holds its node as an instance, which
  its caller closes; the machine writes a node when it is done with it.  The blocks
  are written in the same order, so that the recursion on a node takes the machine
  from its way down to that node to its way up from it, with the closing of the
  instance still to come.

  Main result: `insert_ends` — `insert` returns, and leaves the end of the machine.
-/
import NvmTree.Alone.Machine
import NvmTree.OnDisk.Mirror

namespace NvmTree

open RangeTree

variable {K V : Type*} [LinearOrder K]

namespace Alone

/-! ## §1. The store as a machine. -/

/-- The machine with the blocks of the store. -/
def ofDisk (root : BlkAddress) (depth : Nat) (d : Disk K V) (job : Job K V) : Machine K V :=
  ⟨d.blocks, d.alloc, root, depth, job⟩

variable {d d' : Disk K V} {root : BlkAddress} {depth : Nat} {job : Job K V} {n : Node K V}

omit [LinearOrder K] in
/-- `close` of an instance writes it if it is marked modified. -/
theorem ofDisk_close (hfree : ¬ d.alloc.Free n.selfRep) :
    ofDisk root depth (d.close n.selfRep n) job
      = if n.modified then (ofDisk root depth d job).write n else ofDisk root depth d job := by
  unfold Disk.close Disk.write
  rw [if_pos (Disk.isAddressValid_iff.2 hfree)]
  split
  · rfl
  · rfl

omit [LinearOrder K] in
/-- The two halves of a split are closed. -/
theorem ofDisk_close_halves {left right : Node K V} (hleft : ¬ d.alloc.Free left.selfRep)
    (hright : ¬ d.alloc.Free right.selfRep) (hml : left.modified = true)
    (hmr : right.modified = true) :
    ofDisk root depth ((d.close left.selfRep left).close right.selfRep right) job
      = ((ofDisk root depth d job).write left).write right := by
  rw [ofDisk_close (by rw [Disk.close_alloc]; exact hright), ofDisk_close hleft, if_pos hml,
    if_pos hmr]

/-- The machine on its way up, once the instance of the node is closed. -/
def keptUp (root : BlkAddress) (depth : Nat) (d : Disk K V) (n : Node K V)
    (parents : List (Frame K)) : Machine K V :=
  if n.modified then (ofDisk root depth d (.up none parents)).write n
  else ofDisk root depth d (.up none parents)

omit [LinearOrder K] in
theorem keptUp_fields (root : BlkAddress) (depth : Nat) (d : Disk K V) (n : Node K V)
    (parents : List (Frame K)) : (keptUp root depth d n parents).job = .up none parents
      ∧ (keptUp root depth d n parents).allocator = d.alloc := by
  unfold keptUp
  split
  · exact ⟨rfl, rfl⟩
  · exact ⟨rfl, rfl⟩

/-- The machine on its way up, once the instances of both halves are closed. -/
def splitUp (root : BlkAddress) (depth : Nat) (d : Disk K V) (s : Split K V)
    (parents : List (Frame K)) : Machine K V :=
  ((ofDisk root depth d (.up (some s) parents)).write s.left).write s.right

/-- An activation on `node` returned, and the machine is on its way up. -/
structure Returned (cap : Nat) (key : K) (value : V) (σ : Machine K V) (node : BlkAddress)
    (parents : List (Frame K)) (d : Disk K V) (n : Node K V) (split : Option (Node K V × K)) :
    Prop where
  selfRep : n.selfRep = node
  kept : split = none → σ.Reach cap key value (keptUp σ.root σ.depth d n parents)
  halves : ∀ r ∈ split, n.modified = true ∧ r.1.modified = true ∧ ¬ d.alloc.Free r.1.selfRep
    ∧ σ.Reach cap key value (splitUp σ.root σ.depth d ⟨n, r.1, r.2⟩ parents)

/-! ## §2. The recursion. -/

variable {cap : Nat} {G : Plan K BlkAddress} {key : K} {value : V} {node : BlkAddress}
  {parents : List (Frame K)}

/-- At a leaf. -/
theorem returned_leaf {leaf : LeafNode K V}
    (hok : (ofDisk root depth d (.down node parents)).Ok cap G)
    (hb : (d.blocks node).map Block.deserialize = some (.leaf leaf)) (fuel : Nat) :
    ∃ d' n split, d.insertWithSplitSupport id cap (fuel + 1) (.leaf leaf) key value
        = some (d', n, split)
      ∧ Returned cap key value (ofDisk root depth d (.down node parents)) node parents d' n split := by
  have hself : leaf.selfRep = node := (hok.read rfl hb).1
  have hstep : (ofDisk root depth d (.down node parents)).step cap key value
      = some ((ofDisk root depth d (.down node parents)).insertLeaf cap key value leaf parents) :=
    Machine.step_leaf rfl hb
  have hflags := LeafNode.insertWithSplitSupport_flags cap leaf key value (d.next id)
  unfold Disk.insertWithSplitSupport
  obtain ⟨⟨left, split⟩, hres⟩ : ∃ res, leaf.insertWithSplitSupport cap key value (d.next id) = res :=
    ⟨_, rfl⟩
  rw [hres] at hflags ⊢
  cases split with
  | none =>
      refine ⟨d, .leaf left, none, rfl, hflags.1.trans hself, fun _ => ?_, by simp⟩
      have hmod : (Node.leaf left).modified = true := hflags.2.1
      unfold keptUp
      rw [if_pos hmod]
      rw [Machine.insertLeaf_kept hres] at hstep
      exact Relation.ReflTransGen.single hstep
  | some r =>
      obtain ⟨right, b⟩ := r
      have hright := hflags.2.2 _ rfl
      refine ⟨d.allocate id, .leaf left, some (.leaf right, b), rfl, hflags.1.trans hself, by simp,
        fun r hr => ?_⟩
      rw [← Option.some.inj hr]
      rw [Machine.insertLeaf_split hres] at hstep
      refine ⟨hflags.2.1, hright.2, fun hfree => ?_, Relation.ReflTransGen.single hstep⟩
      exact (hok.allocator.free_allocate.1 hfree).2 hright.1

/-- At an inner node: what the call on the child returns is added to the copy. -/
theorem insertWithSplitSupport_inner {n : InnerNode K} {k : K} {c : BlkAddress} {child : Node K V}
    (hslot : (Frame.toward key n).node.slots[(Frame.toward key n).position]? = some (k, c))
    (hget : d.get c = some child) (fuel : Nat) :
    d.insertWithSplitSupport id cap (fuel + 1) (.inner n) key value
      = match d.insertWithSplitSupport id cap fuel child key value with
        | none => none
        | some (d', child', none) => some (d'.close c child', .inner (Frame.toward key n).node, none)
        | some (d', child', some (right, boundary)) => d'.addSplitChild id cap
            (Frame.toward key n).node (Frame.toward key n).position child' right boundary := by
  have hmax : (max 0 (n.locateChildIndex key)).toNat = (n.locateChildIndex key).toNat := by omega
  unfold Frame.toward at hslot
  dsimp only at hslot
  rw [Disk.insertWithSplitSupport, hmax, hslot]
  dsimp only
  rw [hget]
  rfl

/-- The parent takes the new slot, or is split in turn. -/
theorem returned_split {σ : Machine K V} {p : Frame K} {s : Split K V} (hcap : 2 ≤ cap)
    (hσ : σ.Ok cap G) (hself : p.node.selfRep = node)
    (hreach : σ.Reach cap key value (splitUp σ.root σ.depth d s (p :: parents)))
    (hleft : ¬ d.alloc.Free s.left.selfRep) (hright : ¬ d.alloc.Free s.right.selfRep)
    (hml : s.left.modified = true) (hmr : s.right.modified = true) :
    ∃ d' n split, d.addSplitChild id cap p.node p.position s.left s.right s.boundary
        = some (d', n, split)
      ∧ Returned cap key value σ node parents d' n split := by
  have hok := hσ.reach hcap hreach
  have hstep : (splitUp σ.root σ.depth d s (p :: parents)).step cap key value = _ :=
    Machine.step_split rfl
  unfold Disk.addSplitChild
  by_cases hroom : p.node.size < cap
  · have hroom' : p.node.markModified.size < cap := hroom
    rw [Machine.addSplit_room hroom] at hstep
    dsimp only
    rw [if_pos hroom']
    refine ⟨_, _, none, rfl, hself, fun _ => ?_, by simp⟩
    unfold keptUp
    rw [ofDisk_close_halves hleft hright hml hmr]
    exact hreach.tail hstep
  · have hroom' : ¬ p.node.markModified.size < cap := hroom
    have hfull : p.node.size = cap :=
      le_antisymm (hok.job.2.1 p List.mem_cons_self) (not_lt.1 hroom)
    -- marking the node modified before the split makes no difference
    have hmark : p.node.markModified.splitInsert cap p.position s.right.selfRep s.boundary
        (d.next id) = p.node.splitInsert cap p.position s.right.selfRep s.boundary d.alloc.next := rfl
    have hflags := InnerNode.splitInsert_flags cap p.node p.position s.right.selfRep s.boundary d.alloc.next
    have hnil := (InnerNode.splitInsert_ne_nil hcap hfull p.position s.right.selfRep s.boundary
      d.alloc.next).2
    obtain ⟨⟨l, r⟩, hhalves⟩ : ∃ halves, p.node.splitInsert cap p.position s.right.selfRep s.boundary
      d.alloc.next = halves := ⟨_, rfl⟩
    rw [hhalves] at hflags hnil
    obtain ⟨⟨leftmost, c⟩, rest, hslots⟩ := List.exists_cons_of_ne_nil hnil
    rw [Machine.addSplit_full hroom hhalves hslots] at hstep
    have hused : ∀ x, ¬ d.alloc.Free x → ¬ d.alloc.allocate.Free x := fun x hx hf =>
      hx (hok.allocator.free_allocate.1 hf).1
    dsimp only
    rw [if_neg hroom', hmark, hhalves]
    dsimp only at hslots ⊢
    rw [hslots]
    refine ⟨_, _, _, rfl, hflags.1.trans hself, by simp, fun q hq => ?_⟩
    rw [← Option.some.inj hq]
    refine ⟨hflags.2.1, hflags.2.2.2, fun hfree => ?_, ?_⟩
    · rw [Disk.close_alloc, Disk.close_alloc] at hfree
      exact (hok.allocator.free_allocate.1 hfree).2 hflags.2.2.1
    · unfold splitUp
      rw [ofDisk_close_halves (hused _ hleft) (hused _ hright) hml hmr]
      exact hreach.tail hstep

/-- The parent of a node that kept the entry is written if its first key was lowered. -/
theorem keptUp_step {p : Frame K} (hfree : ¬ d.alloc.Free n.selfRep) :
    (keptUp root depth d n (p :: parents)).step cap key value
      = some (keptUp root depth (d.close n.selfRep n) (.inner p.node) parents) := by
  rw [Machine.step_up (keptUp_fields root depth d n (p :: parents)).1]
  unfold keptUp
  rw [ofDisk_close hfree]
  have hmod : (Node.inner p.node : Node K V).modified = p.node.modified := rfl
  rw [hmod]
  cases n.modified with
  | false =>
      cases p.node.modified with
      | false => rfl
      | true => rfl
  | true =>
      cases p.node.modified with
      | false => rfl
      | true => rfl

/-- **The recursion on a node** takes the machine up from it. -/
theorem returned (hcap : 2 ≤ cap) (fuel : Nat) :
    ∀ {node : BlkAddress} {parents : List (Frame K)} {sp : Span K} {n : Node K V},
      (ofDisk root depth d (.down node parents)).Ok cap G → G node = some sp → sp.level ≤ fuel →
      (d.blocks node).map Block.deserialize = some n →
      ∃ d' n' split, d.insertWithSplitSupport id cap fuel n key value = some (d', n', split)
        ∧ Returned cap key value (ofDisk root depth d (.down node parents)) node parents d' n'
            split := by
  induction fuel with
  | zero =>
      intro node parents sp n hok hG hlevel hb
      obtain ⟨κ, ht⟩ := hok.job.1
      have := ht.level_pos hG
      omega
  | succ fuel ih =>
      intro node parents sp n hok hG hlevel hb
      cases n with
      | leaf leaf => exact returned_leaf hok hb fuel
      | inner n =>
          -- down to the child, …
          obtain ⟨k, c, hslot, hself, hok'⟩ := hok.visit rfl hb key
          have hdown : (ofDisk root depth d (.down node parents)).step cap key value
              = some (ofDisk root depth d (.down c (Frame.toward key n :: parents))) :=
            (Machine.step_inner rfl hb).trans (Machine.visit_eq hslot)
          obtain ⟨sp', sc, hp, hc, hlt⟩ := hok'.job.2.2.1.1
          rw [hself, hG] at hp
          cases hp
          obtain ⟨b, hblock⟩ := hok'.block rfl
          have hmap : (d.blocks c).map Block.deserialize = some b.deserialize := by
            rw [show d.blocks c = some b from hblock, Option.map_some]
          have hget : d.get c = some b.deserialize := Disk.get_eq (hok'.used c sc hc) hblock
          obtain ⟨d₁, child, split, hrec, hret⟩ := ih hok' hc (by omega) hmap
          -- … and up again from it
          cases split with
          | none =>
              have hup := hret.kept rfl
              have hfree : ¬ d₁.alloc.Free child.selfRep := by
                have hused := (hok'.reach hcap hup).used c sc hc
                rw [(keptUp_fields ..).2] at hused
                rw [hret.selfRep]
                exact hused
              rw [insertWithSplitSupport_inner hslot hget, hrec]
              refine ⟨_, _, none, rfl, hself, fun _ => ?_, by simp⟩
              rw [← hret.selfRep]
              exact Relation.ReflTransGen.tail (.head hdown hup) (keptUp_step hfree)
          | some r =>
              obtain ⟨right, b⟩ := r
              obtain ⟨hml, hmr, hright, hup⟩ := hret.halves _ rfl
              have hleft : ¬ d₁.alloc.Free child.selfRep := by
                rw [hret.selfRep]
                exact (hok'.reach hcap hup).used c sc hc
              rw [insertWithSplitSupport_inner hslot hget, hrec]
              exact returned_split (s := ⟨child, right, b⟩) hcap hok hself
                (Relation.ReflTransGen.head hdown hup) hleft hright hml hmr

/-! ## §3. The call. -/

/-- The root kept the entry. -/
theorem kept_ends (hfree : ¬ d.alloc.Free n.selfRep) :
    Machine.Ends cap key value 1 (keptUp root depth d n [])
      (ofDisk root depth (d.close n.selfRep n) .done) := by
  have hclose : (keptUp root depth d n []).goto .done
      = ofDisk root depth (d.close n.selfRep n) .done := by
    rw [ofDisk_close hfree]
    unfold keptUp
    split
    · rfl
    · rfl
  rw [← hclose]
  exact .step (Machine.step_top (keptUp_fields root depth d n []).1) (.done rfl)

/-- The root was split. -/
theorem split_ends {s : Split K V} {kl kr : K} (halloc : d.alloc.Ok)
    (hkl : s.left.getLeftmostKey = some kl) (hkr : s.right.getLeftmostKey = some kr)
    (hleft : ¬ d.alloc.Free s.left.selfRep) (hright : ¬ d.alloc.Free s.right.selfRep)
    (hml : s.left.modified = true) (hmr : s.right.modified = true) :
    Machine.Ends cap key value 1 (splitUp root depth d s [])
      (ofDisk (d.next id) (depth + 1) ((((d.allocate id).close s.left.selfRep s.left).close
        s.right.selfRep s.right).close (d.next id) (.inner (InnerNode.ofChildren (d.next id)
          (kl, s.left.selfRep) (kr, s.right.selfRep)).markModified)) .done) := by
  have hused : ∀ x, ¬ d.alloc.Free x → ¬ (d.allocate id).alloc.Free x := fun x hx hf =>
    hx (halloc.free_allocate.1 hf).1
  have hroot : ¬ ((((d.allocate id).close s.left.selfRep s.left).close s.right.selfRep
      s.right).alloc.Free (d.next id)) := by
    rw [Disk.close_alloc, Disk.close_alloc]
    exact fun hf => (halloc.free_allocate.1 hf).2 rfl
  have hclose : ofDisk (d.next id) (depth + 1) ((((d.allocate id).close s.left.selfRep s.left).close
      s.right.selfRep s.right).close (d.next id) (.inner (InnerNode.ofChildren (d.next id)
        (kl, s.left.selfRep) (kr, s.right.selfRep)).markModified)) .done
      = (((ofDisk (d.next id) (depth + 1) (d.allocate id) .done).write s.left).write s.right).write
          (.inner (InnerNode.ofChildren (d.next id) (kl, s.left.selfRep)
            (kr, s.right.selfRep)).markModified) := by
    rw [← ofDisk_close_halves (hused _ hleft) (hused _ hright) hml hmr]
    exact (ofDisk_close hroot).trans (if_pos rfl)
  rw [hclose]
  exact .step ((Machine.step_root rfl).trans (Machine.newRoot_eq hkl hkr)) (.done rfl)

/-- **`insert` returns, and what it leaves is the end of the machine.** -/
theorem insert_ends (hcap : 2 ≤ cap) {blocks : BlkAddress → Option (Block K V)}
    {allocator : Allocator} (hok : (⟨blocks, allocator, root, depth, .down root []⟩ :
      Machine K V).Ok cap G) :
    ∃ t n, (⟨⟨blocks, allocator, []⟩, root, depth⟩ : DiskTree K V).insert id cap key value = some t
      ∧ Machine.Ends cap key value n ⟨blocks, allocator, root, depth, .down root []⟩
          (ofDisk t.root t.depth t.disk .done) := by
  obtain ⟨κ, ht⟩ := hok.job.1
  obtain ⟨sp, hG⟩ := hok.job.2.2.1.plan
  obtain ⟨b, hb⟩ := hok.block rfl
  have hmap : (blocks root).map Block.deserialize = some b.deserialize := by
    rw [show blocks root = some b from hb, Option.map_some]
  have hget : (⟨blocks, allocator, []⟩ : Disk K V).get root = some b.deserialize :=
    Disk.get_eq (hok.used root sp hG) hb
  obtain ⟨d, n, split, hrec, hret⟩ :=
    returned (d := ⟨blocks, allocator, []⟩) hcap depth hok hG (ht.level_le hG) hmap
  unfold DiskTree.insert
  dsimp only
  rw [hget]
  dsimp only
  rw [hrec]
  cases split with
  | none =>
      have hup := hret.kept rfl
      have hused := (hok.reach hcap hup).used root sp hG
      rw [(keptUp_fields ..).2, ← hret.selfRep] at hused
      obtain ⟨k, hk⟩ := hup.ends (kept_ends hused)
      rw [hret.selfRep] at hk
      exact ⟨_, k, rfl, hk⟩
  | some r =>
      obtain ⟨right, boundary⟩ := r
      obtain ⟨hml, hmr, hright, hup⟩ := hret.halves _ rfl
      have hend := hok.reach hcap hup
      have hleft : ¬ d.alloc.Free n.selfRep := by
        rw [hret.selfRep]
        exact hend.used root sp hG
      obtain ⟨hnl, hnr⟩ := hend.job.2.2 _ rfl
      obtain ⟨kl, hkl⟩ := Option.ne_none_iff_exists'.1 hnl
      obtain ⟨kr, hkr⟩ := Option.ne_none_iff_exists'.1 hnr
      obtain ⟨k, hk⟩ := hup.ends (split_ends (s := ⟨n, right, boundary⟩) hend.allocator hkl hkr hleft
        hright hml hmr)
      dsimp only at hkl hkr ⊢
      rw [hkl, hkr]
      exact ⟨_, k, rfl, hk⟩

end Alone

end NvmTree
