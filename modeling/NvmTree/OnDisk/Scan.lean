/-
  NvmTree.OnDisk.Scan — the scan of a tree, in memory and over the block store.

  An iterator over the store mirrors one in memory: it stands at the image of the
  leaf, and the instance it may still be bound to is that of the leaf.

  Main results:
    * `next_mirror`, `drain_mirror` — the iterator.
    * `DiskTree.run_scan` — after every sequence of calls the scan yields what the calls
      left bound, on both trees, and writes nothing.
-/
import NvmTree.OnDisk.Refine
import NvmTree.Vanilla.Scan

namespace NvmTree

open RangeTree

variable {K V : Type*} [LinearOrder K] {capacity : Nat} {pick : List BlkAddress → List BlkAddress}
  {ρ : BlkAddress → BlkAddress} {h : Heap K V}

/-! ## §1. The leftmost leaf. -/

omit [LinearOrder K] in
/-- **`get_leftmost_leaf_node`** on the store. -/
theorem getLeftmostLeafNode_mirror (hok : h.Ok capacity) {leaf : BlkAddress} :
    ∀ (fuel : Nat) {d : Disk K V} {a : BlkAddress} {n : Node K V}, Mirror capacity ρ h d [] →
      h.cells a = some n → Node.getLeftmostLeafNode fuel h a = some leaf →
      ∃ d', d.getLeftmostLeafNode fuel (n.image ρ false) = some (d', ρ leaf)
        ∧ Mirror capacity ρ h d' [] ∧ d.Same d' := by
  intro fuel
  induction fuel with
  | zero => intro d a n _ _ heq; cases heq
  | succ fuel ih =>
      intro d a n hm hn heq
      rw [Node.getLeftmostLeafNode] at heq
      cases n with
      | leaf n =>
          simp only [hn] at heq
          cases heq
          exact ⟨d, rfl, hm, rfl, rfl⟩
      | inner n =>
          rw [Node.image, Disk.getLeftmostLeafNode]
          simp only [hn, InnerNode.image_getElem?] at heq ⊢
          cases hs : n.slots[0]? with
          | none => simp [hs] at heq
          | some slot =>
              obtain ⟨ki, c⟩ := slot
              simp only [hs, Option.map_some, Prod.map, id] at heq ⊢
              obtain ⟨nc, hnc⟩ : ∃ nc, h.cells c = some nc := by
                cases hc : h.cells c with
                | some nc => exact ⟨nc, rfl⟩
                | none =>
                    cases fuel with
                    | zero => cases heq
                    | succ fuel => simp [Node.getLeftmostLeafNode, hc] at heq
              obtain ⟨d₁, hd₁, hm₁, hsame₁⟩ := ih hm hnc heq
              obtain ⟨hm₂, hsame₂⟩ := hm₁.closeRead hok hnc
              refine ⟨_, ?_, hm₂, hsame₁.trans hsame₂⟩
              simp only [(hm.get hnc List.not_mem_nil).1, hd₁]

/-! ## §2. The iterator. -/

/-- The iterator `i` over the store mirrors `it`. -/
structure DiskIterator.Mirrors (ρ : BlkAddress → BlkAddress) (h : Heap K V) (it : Iterator K)
    (i : DiskIterator K V) : Prop where
  position : i.it = { it with leafNodeRef := ρ it.leafNodeRef }
  loaded : ∀ N, i.loaded = some N →
    ∃ n, h.cells it.leafNodeRef = some n ∧ N = n.image ρ false

variable {it it' : Iterator K} {i : DiskIterator K V} {d : Disk K V}

omit [LinearOrder K] in
/-- The instance `next` works on. -/
theorem DiskIterator.Mirrors.get (hi : DiskIterator.Mirrors ρ h it i)
    (hm : Mirror capacity ρ h d []) {n : Node K V} (hn : h.cells it.leafNodeRef = some n) :
    (i.loaded <|> d.get i.it.leafNodeRef) = some (n.image ρ false) := by
  match hl : i.loaded with
  | some N =>
      obtain ⟨n', hn', rfl⟩ := hi.loaded N hl
      rw [hn] at hn'
      cases hn'
      rfl
  | none =>
      rw [hi.position]
      exact (hm.get hn List.not_mem_nil).1

/-- **`next`** on the store, by induction over the moves to a sibling. -/
theorem next_mirror (hok : h.Ok capacity) {r : Option (K × V)} :
    ∀ (fuel : Nat) {d : Disk K V} {it it' : Iterator K} {i : DiskIterator K V},
      Mirror capacity ρ h d [] → DiskIterator.Mirrors ρ h it i →
      it.next h fuel = some (it', r) →
      ∃ d' i', DiskIterator.next fuel d i = some (d', i', r) ∧ Mirror capacity ρ h d' []
        ∧ d.Same d' ∧ DiskIterator.Mirrors ρ h it' i' := by
  intro fuel
  induction fuel with
  | zero => intro d it it' i _ _ heq; cases heq
  | succ fuel ih =>
      intro d it it' i hm hi heq
      rw [Iterator.next] at heq
      rcases hn : h.cells it.leafNodeRef with _ | n
      · simp [hn] at heq
      cases n with
      | inner n => simp [hn] at heq
      | leaf n =>
          simp only [hn] at heq
          obtain ⟨hm₁, hsame₁⟩ := hm.closeRead hok hn
          have hentry : (n.image ρ false).getEntry it.offset = n.getEntry it.offset := rfl
          rw [DiskIterator.next, hi.get hm hn]
          simp only [Node.image, hi.position, hentry]
          cases he : n.getEntry it.offset with
          | some entry =>
              simp only [he] at heq ⊢
              cases heq
              exact ⟨_, _, rfl, hm₁, hsame₁, rfl, fun N hN => by cases hN⟩
          | none =>
              simp only [he] at heq ⊢
              cases hs : n.rightSibling with
              | none =>
                  simp only [hs, LeafNode.image, Option.map_none] at heq ⊢
                  cases heq
                  refine ⟨d, _, rfl, hm, ⟨rfl, rfl⟩, rfl, fun N hN => ?_⟩
                  cases hN
                  refine ⟨.leaf n, hn, ?_⟩
                  simp only [Node.image, LeafNode.image, hs, Option.map_none]
              | some right_sibling_rep =>
                  simp only [hs, LeafNode.image, Option.map_some] at heq ⊢
                  have himage : (Node.leaf ⟨ρ n.selfRep, some (ρ right_sibling_rep), n.entries,
                      false⟩ : Node K V) = (Node.leaf n).image ρ false := by
                    simp only [Node.image, LeafNode.image, hs, Option.map_some]
                  rw [himage]
                  obtain ⟨d', i', hd', hm', hsame', hi'⟩ := ih
                    (i := ⟨⟨ρ right_sibling_rep, 0, it.keyHigh⟩, none⟩) hm₁
                    ⟨rfl, fun N hN => by cases hN⟩ heq
                  exact ⟨d', i', hd', hm', hsame₁.trans hsame', hi'⟩

/-- **A scan** on the store. -/
theorem drain_mirror (hok : h.Ok capacity) (moves : Nat) :
    ∀ (calls : Nat) {d : Disk K V} {it : Iterator K} {i : DiskIterator K V} {l : List (K × V)},
      Mirror capacity ρ h d [] → DiskIterator.Mirrors ρ h it i →
      it.drain h moves calls = some l →
      ∃ d', DiskIterator.drain moves calls d i = some (d', l) ∧ d.Same d' := by
  intro calls
  induction calls with
  | zero => intro d it i l _ _ heq; cases heq
  | succ calls ih =>
      intro d it i l hm hi heq
      rw [Iterator.drain] at heq
      rcases hnext : it.next h moves with _ | ⟨it', _ | e⟩
      · simp [hnext] at heq
      · simp only [hnext] at heq
        cases heq
        obtain ⟨d', i', hd', -, hsame, -⟩ := next_mirror hok moves hm hi hnext
        exact ⟨d', by simp only [DiskIterator.drain, hd'], hsame⟩
      · simp only [hnext, Option.map_eq_some_iff] at heq
        obtain ⟨l', hl', rfl⟩ := heq
        obtain ⟨d', i', hd', hm', hsame, hi'⟩ := next_mirror hok moves hm hi hnext
        obtain ⟨d'', hd'', hsame'⟩ := ih hm' hi' hl'
        refine ⟨d'', ?_, hsame.trans hsame'⟩
        simp only [DiskIterator.drain, hd', hd'', Option.map_some]

/-! ## §3. The scan of a tree. -/

namespace DiskTree

variable {t : VanillaBPlusTree K V} {dt : DiskTree K V} {m : K → Option V}
  {G : Plan K BlkAddress} {κ : K}

/-- `get_iterator` on the store, and the scan. -/
theorem scan_mirrors (hM : Mirrors capacity ρ t dt) (hok : t.heap.Ok capacity) {n : Node K V}
    (hn : t.heap.cells t.root = some n) (hit : t.getIterator = some it) :
    ∃ dt₁ it₁, dt.getIterator = some (dt₁, it₁) ∧ dt.disk.Same dt₁.disk ∧ dt₁.root = dt.root
      ∧ dt₁.depth = dt.depth ∧ ∀ moves calls l, it.drain t.heap moves calls = some l →
        ∃ d', DiskIterator.drain moves calls dt₁.disk ⟨it₁, none⟩ = some (d', l)
          ∧ dt.disk.Same d' := by
  obtain ⟨leaf, hleaf, rfl⟩ := Option.map_eq_some_iff.1 hit
  obtain ⟨d₁, hd₁, hm₁, hsame₁⟩ := getLeftmostLeafNode_mirror hok t.depth hM.mirror hn hleaf
  obtain ⟨hm₂, hsame₂⟩ := hm₁.closeRead hok hn
  have hsame := hsame₁.trans hsame₂
  rw [← hM.root] at hm₂ hsame
  refine ⟨{ dt with disk := d₁.close dt.root (n.image ρ false) }, ⟨ρ leaf, 0, none⟩, ?_, hsame, rfl,
    rfl, fun moves calls l hl => ?_⟩
  · simp only [getIterator, hM.root, hM.depth, (hM.mirror.get hn List.not_mem_nil).1, hd₁]
  · obtain ⟨d', hd', hsame'⟩ := drain_mirror (i := ⟨⟨ρ leaf, 0, none⟩, none⟩) hok moves calls hm₂
      ⟨rfl, nofun⟩ hl
    exact ⟨d', hd', hsame.trans hsame'⟩

/-- **The full scan is exact.**  After every sequence of calls, in memory and over the
store, calls of `next` on `get_iterator` end and yield what the calls left bound, in
increasing order of the keys; the store is as it was. -/
theorem run_scan (hcap : 3 ≤ capacity) (hpick : ∀ l, (pick l).Perm l) (cs : List (Call K V)) :
    ∃ t dt answers it dt₁ it₁ l,
      (VanillaBPlusTree.init : VanillaBPlusTree K V).run capacity cs = some (t, answers)
      ∧ (init pick : DiskTree K V).run pick capacity cs = some (dt, answers)
      ∧ SortedKeys l ∧ (∀ k v, (k, v) ∈ l ↔ VanillaBPlusTree.binding cs k = some v)
      ∧ t.getIterator = some it ∧ dt.getIterator = some (dt₁, it₁)
      ∧ dt.disk.Same dt₁.disk ∧ dt₁.root = dt.root ∧ dt₁.depth = dt.depth
      ∧ ∀ moves calls, t.leaves.length ≤ moves → l.length < calls →
        it.drain t.heap moves calls = some l
          ∧ ∃ d', DiskIterator.drain moves calls dt₁.disk ⟨it₁, none⟩ = some (d', l)
            ∧ dt.disk.Same d' := by
  obtain ⟨ρ₀, hM₀⟩ : ∃ ρ₀, Mirrors capacity ρ₀ (VanillaBPlusTree.init : VanillaBPlusTree K V)
      (init pick) := init_mirrors hpick
  cases isEmpty_or_nonempty K with
  | inl hK =>
      cases cs with
      | cons c cs => cases c <;> exact hK.elim ‹K›
      | nil =>
          -- without keys there is only the empty leaf
          have hit : (VanillaBPlusTree.init : VanillaBPlusTree K V).getIterator
              = some ⟨0, 0, none⟩ := rfl
          obtain ⟨dt₁, it₁, hit₁, hsame, hroot, hdepth, hscan⟩ :=
            scan_mirrors hM₀ VanillaBPlusTree.init_ok rfl hit
          refine ⟨_, _, [], _, dt₁, it₁, [], rfl, rfl, sortedKeys_nil, fun k => hK.elim k, rfl, hit₁,
            hsame, hroot, hdepth, fun moves calls hmoves hcalls => ?_⟩
          have hdrain : Iterator.drain (VanillaBPlusTree.init : VanillaBPlusTree K V).heap moves
              calls ⟨0, 0, none⟩ = some [] := by
            match moves, calls, hmoves, hcalls with
            | moves + 1, calls + 1, _, _ => rfl
          exact ⟨hdrain, hscan moves calls [] hdrain⟩
  | inr hK =>
      obtain ⟨κ⟩ := hK
      obtain ⟨ρ, t, dt, answers, G, κ', hrun, hrund, hM, hinv, -⟩ := run_mirrors hcap hpick cs hM₀
        (VanillaBPlusTree.init_inv κ) init_planned
      obtain ⟨n, hn, -⟩ := Heap.cell_of_plan hinv.tree hinv.plan_root
      obtain ⟨it, l, hit, hsort, hmem, hdrain⟩ := hinv.scan
      obtain ⟨dt₁, it₁, hit₁, hsame, hroot, hdepth, hscan⟩ := scan_mirrors hM hinv.ok hn hit
      refine ⟨t, dt, answers, it, dt₁, it₁, l, hrun, hrund, hsort, fun k v => ?_, hit, hit₁, hsame,
        hroot, hdepth, fun moves calls hmoves hcalls => ?_⟩
      · rw [hmem k v, VanillaBPlusTree.foldl_eq_binding]
      · have h := hdrain moves calls hmoves hcalls
        exact ⟨h, hscan moves calls l h⟩

/-- A scan at the smallest capacity after insertions that split the root and deletions
that empty a leaf's neighbour. -/
theorem run_scan_three :
    3 ≤ 3 ∧ (∀ l : List BlkAddress, (id l).Perm l) ∧
    ∃ t dt answers it dt₁ it₁ l,
      (VanillaBPlusTree.init : VanillaBPlusTree Nat Nat).run 3
        [.insert 1 10, .insert 2 20, .insert 3 30, .insert 4 40, .deleteKey 1] = some (t, answers)
      ∧ (init id : DiskTree Nat Nat).run id 3
        [.insert 1 10, .insert 2 20, .insert 3 30, .insert 4 40, .deleteKey 1] = some (dt, answers)
      ∧ t.getIterator = some it ∧ dt.getIterator = some (dt₁, it₁)
      ∧ (2, 20) ∈ l ∧ ∃ moves calls, it.drain t.heap moves calls = some l
        ∧ ∃ d', DiskIterator.drain moves calls dt₁.disk ⟨it₁, none⟩ = some (d', l) := by
  refine ⟨le_rfl, fun l => List.Perm.refl l, ?_⟩
  obtain ⟨t, dt, answers, it, dt₁, it₁, l, hrun, hrund, -, hmem, hit, hit₁, -, -, -, hscan⟩ :=
    run_scan (show 3 ≤ 3 from le_rfl) (show ∀ l : List BlkAddress, (id l).Perm l from List.Perm.refl)
      ([.insert 1 10, .insert 2 20, .insert 3 30, .insert 4 40, .deleteKey 1] :
        List (Call Nat Nat))
  obtain ⟨hdrain, d', hd', -⟩ := hscan t.leaves.length (l.length + 1) le_rfl (Nat.lt_succ_self _)
  exact ⟨t, dt, answers, it, dt₁, it₁, l, hrun, hrund, hit, hit₁, (hmem 2 20).2 (by decide), _, _,
    hdrain, d', hd'⟩

end DiskTree

end NvmTree
