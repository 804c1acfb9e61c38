/-
  NvmTree.Vanilla.Scan — `get_iterator` and the scan of the whole tree.

  The iterator starts at the leftmost leaf and follows `right_sibling_`; leaves that
  deletions have emptied are passed over within one call of `next`.

  Main results:
    * `getLeftmostLeafNode_eq` — the leftmost leaf is the first of the leaves.
    * `VanillaBPlusTree.Inv.scan` — the scan yields what the tree holds, in order.
-/
import Mathlib.Data.List.TakeWhile
import NvmTree.Vanilla.Range

namespace NvmTree

open RangeTree

variable {K V : Type*} [LinearOrder K]

/-! ## §1. The code. -/

/-- `get_leftmost_leaf_node`. -/
def Node.getLeftmostLeafNode : Nat → Heap K V → BlkAddress → Option BlkAddress
  | 0, _, _ => none
  | fuel + 1, h, a =>
      match h.cells a with
      | none => none
      | some (.leaf n) => some n.selfRep
      | some (.inner n) =>
          match n.slots[0]? with
          | none => none
          | some (_, c) => getLeftmostLeafNode fuel h c

/-- `get_iterator`. -/
def VanillaBPlusTree.getIterator (t : VanillaBPlusTree K V) : Option (Iterator K) :=
  (Node.getLeftmostLeafNode t.depth t.heap t.root).map (fun leaf => ⟨leaf, 0, none⟩)

/-! ## §2. The scan. -/

variable {capacity : Nat} {h : Heap K V} {G : Plan K BlkAddress} {row : List (K × BlkAddress)}
  {depth : Nat} {m : K → Option V} {κ : K}

/-- **The leftmost leaf**, by induction over the levels. -/
theorem getLeftmostLeafNode_eq (ht : Tree h.store G row depth) (hok : h.Ok capacity) :
    ∀ (l : Nat) {a : BlkAddress} {sp : Span K}, G a = some sp → sp.level = l →
      Node.getLeftmostLeafNode l h a = (leaves h.store l a).head? := by
  intro l
  induction l with
  | zero =>
      intro a sp hG hl
      have := ht.level_pos hG
      omega
  | succ l ih =>
      intro a sp hG hl
      obtain ⟨n, hn, hE⟩ := Heap.cell_of_plan ht hG
      cases n with
      | leaf n =>
          simp only [Node.getLeftmostLeafNode, hn, leaves, hE, Node.shape, List.head?_cons]
          rw [show n.selfRep = a from hok.selfRep hn]
      | inner n =>
          have hin := ht.innerOk hG hE
          obtain ⟨⟨k₀, c⟩, rest, hslots⟩ := List.exists_cons_of_ne_nil hin.covers.ne_nil
          rw [Node.shape, hslots] at hE
          obtain ⟨sc, hc, hlc, -, -⟩ := ht.child hG hE (show (k₀, c) ∈ _ by simp)
          -- the leaves below the first child come first, and there are some
          have hne : leaves h.store l c ≠ [] := by
            intro hnil
            have htiles := ht.leaves_tiles l hc (by omega)
            rw [hnil] at htiles
            exact htiles
          simp only [Node.getLeftmostLeafNode, hn, hslots, List.getElem?_cons_zero, leaves, hE,
            List.flatMap_cons]
          rw [ih hc (by omega)]
          cases hleaves : leaves h.store l c with
          | nil => exact absurd hleaves hne
          | cons b bs => rfl

namespace VanillaBPlusTree

variable {t : VanillaBPlusTree K V}

/-- The leaves of the tree, from left to right. -/
def leaves (t : VanillaBPlusTree K V) : List BlkAddress :=
  RangeTree.leaves t.heap.store t.depth t.root

/-- **A scan of the whole tree**: calls of `next` yield what the tree holds, each pair
once and in the order of the keys. -/
theorem Inv.scan (hinv : t.Inv capacity m G κ) :
    ∃ it l, t.getIterator = some it ∧ SortedKeys l ∧ (∀ k v, (k, v) ∈ l ↔ m k = some v)
      ∧ ∀ moves calls, t.leaves.length ≤ moves → l.length < calls →
        it.drain t.heap moves calls = some l := by
  have htiles := hinv.tree.leaves_tiles t.depth hinv.plan_root rfl
  obtain ⟨hsort, -, hall⟩ := hinv.tree.tiles_entries htiles
  obtain ⟨a, ys, hleaves⟩ : ∃ a ys, t.leaves = a :: ys :=
    List.exists_cons_of_ne_nil (fun hnil => by
      rw [show RangeTree.leaves t.heap.store t.depth t.root = [] from hnil] at htiles
      exact htiles)
  have hleaves' : RangeTree.leaves t.heap.store t.depth t.root = a :: ys := hleaves
  rw [hleaves'] at hsort hall htiles
  have hchain := hinv.tree.tiles_chain htiles
  obtain ⟨es, next, hE⟩ : ∃ es next, t.heap.store a = some (.leaf es next) := by
    cases ys with
    | nil =>
        obtain ⟨es, hE⟩ := hchain
        exact ⟨es, _, hE⟩
    | cons b ys =>
        obtain ⟨⟨es, hE⟩, -⟩ := hchain
        exact ⟨es, _, hE⟩
  refine ⟨⟨a, 0, none⟩, entriesOf t.heap.store (a :: ys), ?_, hsort, fun k v => ?_,
    fun moves calls hmoves hcalls => ?_⟩
  · unfold getIterator
    rw [getLeftmostLeafNode_eq hinv.tree hinv.ok t.depth hinv.plan_root rfl, hleaves']
    rfl
  · rw [hinv.map k v]
    refine ⟨fun hm => ?_, fun hv => hall k v hv bot_le (key_lt_top k)⟩
    obtain ⟨c, hc, he⟩ := List.mem_flatMap.1 hm
    obtain ⟨sc, hGc⟩ := htiles.plan hc
    rcases hinv.tree.cases hGc with ⟨es', next', hE', -⟩ | ⟨slots, hE', -⟩
    · rw [hE'] at he
      exact ⟨c, sc, es', next', hGc, hE', he⟩
    · rw [hE'] at he
      cases he
  · rw [hleaves, List.length_cons] at hmoves
    have hahead : Iterator.Ahead t.heap ys.length ⟨a, 0, none⟩
        (entriesOf t.heap.store (a :: ys)) :=
      ⟨ys, es, next, hchain, hE, entriesOf_cons ys hE, le_rfl⟩
    rw [Iterator.drain_spec hahead hmoves hcalls]
    -- there is no bound to stop at
    exact congrArg some (List.takeWhile_eq_self_iff.2 (fun _ _ => rfl))

end VanillaBPlusTree

end NvmTree
