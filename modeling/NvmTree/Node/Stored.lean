/-
  NvmTree.Node.Stored — a tree in blocks.

  `Stored` is the start of every run of the lock-based and the pull-based tree: the
  blocks contain a tree, each node under its own address and with at most `cap`
  entries, and the allocator hands out none of its addresses.

  Main result: `Stored.single`, the empty leaf that `init` writes.
-/
import NvmTree.Blk.Allocator
import NvmTree.Node.Inner
import NvmTree.RangeTree.Update

namespace NvmTree

open RangeTree

variable {K V : Type*}

theorem Node.getLeftmostKey_eq (n : Node K V) : n.getLeftmostKey = n.shape.keys.head? := by
  cases n with
  | leaf n => exact List.head?_map.symm
  | inner n => exact List.head?_map.symm

/-- What the blocks contain after one was written. -/
theorem map_shape_update (blocks : BlkAddress → Option (Block K V)) (a : BlkAddress)
    (b : Block K V) :
    (fun x => (Function.update blocks a (some b) x).map Block.shape)
      = Function.update (fun x => (blocks x).map Block.shape) a (some b.shape) := by
  funext x
  by_cases hx : x = a
  · rw [hx, Function.update_self, Function.update_self]
    rfl
  · rw [Function.update_of_ne hx, Function.update_of_ne hx]

/-- The blocks know their address, and are not too large. -/
def BlocksOk (cap : Nat) (blocks : BlkAddress → Option (Block K V)) : Prop :=
  ∀ a b, blocks a = some b → b.selfRep = a ∧ b.deserialize.size ≤ cap

theorem BlocksOk.update {cap : Nat} {blocks : BlkAddress → Option (Block K V)} {a : BlkAddress}
    {b : Block K V} (h : BlocksOk cap blocks) (hself : b.selfRep = a)
    (hsize : b.deserialize.size ≤ cap) : BlocksOk cap (Function.update blocks a (some b)) := by
  intro x b' hb'
  by_cases hx : x = a
  · rw [hx, Function.update_self] at hb'
    cases hb'
    exact ⟨hself.trans hx.symm, hsize⟩
  · rw [Function.update_of_ne hx] at hb'
    exact h x b' hb'

variable [LinearOrder K]

/-- The split of a full inner node cuts the row that has the new slot. -/
theorem InnerNode.splitInsert_halves {n : InnerNode K} {cap : Nat} {xs ys : List (K × BlkAddress)}
    {ka b : K} {a r : BlkAddress}
    (hsorted : SortedKeys (xs ++ (ka, a) :: (b, r) :: ys)) (hslots : n.slots = xs ++ (ka, a) :: ys)
    (hfull : n.size = cap) (hcap : 2 ≤ cap) (rightRep : BlkAddress) :
    ∃ L b' child R, n.splitInsert cap xs.length r b rightRep
        = (⟨n.selfRep, L, true⟩, ⟨rightRep, (b', child) :: R, true⟩)
      ∧ Halves rightRep b' (.inner (xs ++ (ka, a) :: (b, r) :: ys) : Shape K V BlkAddress) (.inner L)
          (.inner ((b', child) :: R))
      ∧ L.length ≤ cap ∧ ((b', child) :: R).length ≤ cap := by
  rw [sortedKeys_append, sortedKeys_cons, sortedKeys_cons] at hsorted
  obtain ⟨hxs, ⟨hka, hb, hys⟩, hxsys⟩ := hsorted
  have hold : SortedKeys n.slots := by
    rw [hslots, sortedKeys_append, sortedKeys_cons]
    refine ⟨hxs, ⟨fun t ht => hka t (by simp [ht]), hys⟩, fun t ht u hu => hxsys t ht u ?_⟩
    rcases List.mem_cons.1 hu with rfl | hu
    · simp
    · simp [hu]
  obtain ⟨L, R, heq, happ, hL, hR, hlL, hlR⟩ := n.splitInsert_spec hold hslots hfull hcap
    (hka _ (by simp)) hb r rightRep
  obtain ⟨⟨b', child⟩, R, rfl⟩ := List.exists_cons_of_ne_nil hR
  refine ⟨L, b', child, R, heq, ?_, hlL, hlR⟩
  rw [← happ]
  exact .inner hL

/-- A tree of the map `m` is stored in the blocks: each node under its own address and
with at most `cap` entries, and at no address that the allocator may hand out. -/
structure Stored (cap : Nat) (blocks : BlkAddress → Option (Block K V)) (allocator : Allocator)
    (root : BlkAddress) (depth : Nat) (m : K → Option V) : Prop where
  tree : ∃ G κ, Tree (fun a => (blocks a).map Block.shape) G [(κ, root)] depth
    ∧ Represents (fun a => (blocks a).map Block.shape) G m ∧ ∀ x, allocator.Free x → G x = none
  blocks : ∀ a b, blocks a = some b → b.selfRep = a ∧ b.deserialize.size ≤ cap
  allocator : allocator.Ok

/-- **One empty leaf stores the empty map.** -/
theorem Stored.single (cap : Nat) (κ : K) :
    Stored cap (Function.update (fun _ => none) 0 (some (LeafNode.new 0).serialize) :
      BlkAddress → Option (Block K V)) ⟨[], 1⟩ 0 1 (fun _ => none) := by
  have hE : (fun a => ((Function.update (fun _ => none) 0 (some (LeafNode.new 0).serialize) :
      BlkAddress → Option (Block K V)) a).map Block.shape) 0 = some (.leaf [] none) := rfl
  refine ⟨⟨singlePlan 0, κ, Tree.single hE κ, represents_single hE, fun x hx => ?_⟩,
    BlocksOk.update (fun a b hb => nomatch hb) rfl (Nat.zero_le _), List.nodup_nil, nofun⟩
  have hpos : 1 ≤ x := hx.resolve_left List.not_mem_nil
  have hne : x ≠ 0 := Nat.ne_of_gt hpos
  exact if_neg hne

end NvmTree
