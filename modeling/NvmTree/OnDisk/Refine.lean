/-
  NvmTree.OnDisk.Refine — the tree over the block store refines the one in memory.

  `Mirrors ρ t dt`: between two calls no instance is held, and the store mirrors the
  heap.  Every call keeps it, with the renaming extended by what was allocated.

  Main results:
    * `insert_mirrors`, `deleteKey_mirrors`, `search_mirrors` — the calls.
    * `run_mirrors` — every sequence of calls, from a new tree.
-/
import NvmTree.OnDisk.Delete
import NvmTree.Vanilla.Map

namespace NvmTree

open RangeTree

variable {K V : Type*} [LinearOrder K] {capacity : Nat} {pick : List BlkAddress → List BlkAddress}
  {ρ : BlkAddress → BlkAddress} {h : Heap K V} {d : Disk K V} {a : BlkAddress}
  {n : Node K V}

/-! ## §1. Reading. -/

/-- The blocks and the allocated addresses are the same. -/
structure Disk.Same (d d' : Disk K V) : Prop where
  blocks : d'.blocks = d.blocks
  alloc : d'.alloc = d.alloc

omit [LinearOrder K] in
theorem Disk.Same.trans {d₁ d₂ d₃ : Disk K V} (h₁ : d₁.Same d₂) (h₂ : d₂.Same d₃) : d₁.Same d₃ :=
  ⟨h₂.blocks.trans h₁.blocks, h₂.alloc.trans h₁.alloc⟩

omit [LinearOrder K] in
/-- An instance that was only read is closed. -/
theorem Mirror.closeRead (hm : Mirror capacity ρ h d []) (hok : h.Ok capacity)
    (hn : h.cells a = some n) :
    Mirror capacity ρ h (d.close (ρ a) (n.image ρ false)) []
      ∧ d.Same (d.close (ρ a) (n.image ρ false)) := by
  have hopen : a ∉ [] := List.not_mem_nil
  refine ⟨(hm.weaken (fun x hx => nomatch hx)).close (hm.get hn hopen).2
    (fun _ hn => hok.size_le hn), ?_, Disk.close_alloc ..⟩
  unfold Disk.close
  rw [Node.image_modified, if_neg Bool.false_ne_true]

/-- **`search`** on the store. -/
theorem search_mirror (hok : h.Ok capacity) {k : K} {v : Option V} :
    ∀ (fuel : Nat) {d : Disk K V} {a : BlkAddress} {n : Node K V}, Mirror capacity ρ h d [] →
      h.cells a = some n → Node.search fuel h a k = some v →
      ∃ d', d.search fuel (n.image ρ false) k = some (d', v) ∧ Mirror capacity ρ h d' []
        ∧ d.Same d' := by
  intro fuel
  induction fuel with
  | zero => intro d a n _ _ heq; cases heq
  | succ fuel ih =>
      intro d a n hm hn heq
      rw [Node.search] at heq
      cases n with
      | leaf n =>
          simp only [hn] at heq
          cases heq
          exact ⟨d, rfl, hm, rfl, rfl⟩
      | inner n =>
          rw [Node.image, Disk.search]
          simp only [hn, InnerNode.locateChildIndex_image, InnerNode.image_getElem?] at heq ⊢
          by_cases hneg : n.locateChildIndex k < 0
          · simp only [hneg, if_true] at heq ⊢
            cases heq
            exact ⟨d, rfl, hm, rfl, rfl⟩
          · simp only [hneg, if_false] at heq ⊢
            cases hs : n.slots[(n.locateChildIndex k).toNat]? with
            | none => simp [hs] at heq
            | some slot =>
                obtain ⟨ki, c⟩ := slot
                simp only [hs, Option.map_some, Prod.map, id] at heq ⊢
                obtain ⟨nc, hnc⟩ : ∃ nc, h.cells c = some nc := by
                  cases hc : h.cells c with
                  | some nc => exact ⟨nc, rfl⟩
                  | none =>
                      cases fuel with
                      | zero => cases heq
                      | succ fuel => simp [Node.search, hc] at heq
                obtain ⟨d₁, hd₁, hm₁, hsame₁⟩ := ih hm hnc heq
                obtain ⟨hm₂, hsame₂⟩ := hm₁.closeRead hok hnc
                refine ⟨_, ?_, hm₂, hsame₁.trans hsame₂⟩
                simp only [(hm.get hnc List.not_mem_nil).1, hd₁]

/-! ## §2. The calls. -/

/-- The tree over the store mirrors the one in memory. -/
structure DiskTree.Mirrors (capacity : Nat) (ρ : BlkAddress → BlkAddress)
    (t : VanillaBPlusTree K V) (dt : DiskTree K V) : Prop where
  mirror : Mirror capacity ρ t.heap dt.disk []
  root : dt.root = ρ t.root
  depth : dt.depth = t.depth

namespace DiskTree

variable {t t' : VanillaBPlusTree K V} {dt : DiskTree K V} {m : K → Option V}
  {G : Plan K BlkAddress} {κ : K}

theorem search_mirrors (hM : Mirrors capacity ρ t dt) (hinv : t.Inv capacity m G κ) (k : K) :
    ∃ dt', dt.search k = some (dt', m k) ∧ Mirrors capacity ρ t dt' := by
  obtain ⟨n, hn, -⟩ := Heap.cell_of_plan hinv.tree hinv.plan_root
  obtain ⟨d₁, hd₁, hm₁, -⟩ := search_mirror hinv.ok t.depth hM.mirror hn (hinv.search_eq k)
  obtain ⟨hm₂, -⟩ := hm₁.closeRead hinv.ok hn
  refine ⟨{ dt with disk := d₁.close dt.root (n.image ρ false) }, ?_, ?_, hM.root, hM.depth⟩
  · simp only [search, hM.root, hM.depth, (hM.mirror.get hn List.not_mem_nil).1, hd₁]
  · rw [hM.root]
    exact hm₂

/-- The root is loaded. -/
theorem Mirrors.load (hM : Mirrors capacity ρ t dt) (hinv : t.Inv capacity m G κ) :
    ∃ n, t.heap.cells t.root = some n ∧ dt.disk.get dt.root = some (n.image ρ false)
      ∧ Loaded ρ t.heap dt.disk t.root (n.image ρ false)
      ∧ Mirror capacity ρ t.heap dt.disk [t.root] ∧ HeldAbove G t.depth [t.root] := by
  obtain ⟨n, hn, -⟩ := Heap.cell_of_plan hinv.tree hinv.plan_root
  obtain ⟨hget, hN⟩ := hM.mirror.get hn List.not_mem_nil
  refine ⟨n, hn, by rw [hM.root, hget], hN, hM.mirror.weaken (fun x hx => nomatch hx), ?_⟩
  intro x hx
  rw [List.mem_singleton.1 hx]
  exact ⟨_, hinv.plan_root, le_rfl⟩

omit [LinearOrder K] in
/-- The halves of the old root are closed, and the new root after them. -/
theorem grow_mirrors (hpick : ∀ l, (pick l).Perm l) {h : Heap K V} {d : Disk K V}
    {root r : BlkAddress} {L R : Node K V} {kl kr : K} {nl nr : Node K V} {depth : Nat}
    (hm : Mirror capacity ρ h d [r, root]) (hL : Loaded ρ h d root L) (hR : Loaded ρ h d r R)
    (hnl : h.cells root = some nl) (hnr : h.cells r = some nr) (hne : root ≠ r)
    (hok : (h.alloc (.inner (InnerNode.ofChildren h.next (kl, nl.selfRep)
      (kr, nr.selfRep)).markModified)).Ok capacity) :
    Mirrors capacity (Function.update ρ h.next (d.next pick))
      ⟨h.alloc (.inner (InnerNode.ofChildren h.next (kl, nl.selfRep)
        (kr, nr.selfRep)).markModified), h.next, depth⟩
      ⟨(((d.allocate pick).close L.selfRep L).close R.selfRep R).close (d.next pick)
        (.inner (InnerNode.ofChildren (d.next pick) (kl, L.selfRep)
          (kr, R.selfRep)).markModified), d.next pick, depth⟩ := by
  have hρ : ∀ x < h.next, Function.update ρ h.next (d.next pick) x = ρ x :=
    fun x hx => Function.update_of_ne (Nat.ne_of_lt hx) _ _
  have hself : ∀ {x N n}, Loaded ρ h d x N → h.cells x = some n →
      N.selfRep = Function.update ρ h.next (d.next pick) x ∧ n.selfRep = x ∧ x < h.next := by
    rintro x N n ⟨n', b, hn', rfl, -⟩ hn
    rw [hn'] at hn
    cases hn
    have hlt := hm.lt_next hn'
    exact ⟨by rw [Node.image_selfRep, hm.selfRep hn', hρ x hlt], hm.selfRep hn', hlt⟩
  obtain ⟨hLself, hlself, hllt⟩ := hself hL hnl
  obtain ⟨hRself, hrself, hrlt⟩ := hself hR hnr
  have hbelow : (Node.inner (InnerNode.ofChildren h.next (kl, nl.selfRep)
      (kr, nr.selfRep)).markModified : Node K V).Below (h.next + 1) := by
    refine Node.below_inner.2 ⟨Nat.lt_succ_self _, fun s hs => ?_⟩
    simp only [InnerNode.markModified, InnerNode.ofChildren, List.mem_cons, List.not_mem_nil,
      or_false, hlself, hrself] at hs
    rcases hs with rfl | rfl
    · exact Nat.lt_succ_of_lt hllt
    · exact Nat.lt_succ_of_lt hrlt
  have hm₁ := hm.alloc_new hpick rfl hbelow
  generalize hρ' : Function.update ρ h.next (d.next pick) = ρ' at hρ hm₁ hLself hRself ⊢
  have hrep : ρ' h.next = d.next pick := by rw [← hρ', Function.update_self]
  have hcell : ∀ {x}, x < h.next → (h.alloc (.inner (InnerNode.ofChildren h.next (kl, nl.selfRep)
      (kr, nr.selfRep)).markModified)).cells x = h.cells x :=
    fun hx => Function.update_of_ne (Nat.ne_of_lt hx) _ _
  have hL₁ : Loaded ρ' _ (d.allocate pick) root L := hL.congr (hcell hllt) hm.node_below hρ rfl
  have hR₁ : Loaded ρ' _ (d.allocate pick) r R := hR.congr (hcell hrlt) hm.node_below hρ rfl
  have hm₂ : Mirror capacity ρ' _ (d.allocate pick) (root :: r :: [h.next]) :=
    hm₁.weaken (fun x hx => by
      simp only [List.mem_cons] at hx ⊢
      tauto)
  obtain ⟨hm₃, -⟩ := hm₂.closePair hL₁ hR₁ hne hok
  have hnew : Loaded ρ' (h.alloc (.inner
      (InnerNode.ofChildren h.next (kl, nl.selfRep) (kr, nr.selfRep)).markModified))
      (((d.allocate pick).close L.selfRep L).close R.selfRep R) h.next
      (.inner (InnerNode.ofChildren (d.next pick) (kl, L.selfRep) (kr, R.selfRep)).markModified) := by
    refine ⟨_, true, Function.update_self .., ?_, Or.inl rfl⟩
    simp only [Node.image, InnerNode.image, InnerNode.markModified, InnerNode.ofChildren,
      List.map_cons, List.map_nil, Prod.map, id, hrep, hlself, hrself, hLself, hRself]
  refine ⟨?_, hrep.symm, rfl⟩
  rw [← hLself, ← hRself] at hm₃
  have hm₄ := hm₃.close hnew (fun _ hn => hok.size_le hn)
  rwa [hrep] at hm₄

/-- **`insert`**. -/
theorem insert_mirrors (hcap : 2 ≤ capacity) (hpick : ∀ l, (pick l).Perm l)
    (hM : Mirrors capacity ρ t dt) (hinv : t.Inv capacity m G κ) {k : K} {v : V}
    (heq : t.insert capacity k v = some t') (hok : t'.heap.Ok capacity) :
    ∃ ρ' dt', dt.insert pick capacity k v = some dt' ∧ Mirrors capacity ρ' t' dt' := by
  obtain ⟨n, hn, hget, hN, hm, hopen⟩ := hM.load hinv
  obtain ⟨h', s, hins, hspec⟩ := insert_spec (v := v) hcap t.depth le_rfl (hinv.root_canInsert k)
  obtain ⟨ρ', d', N', S, hdisk, hI⟩ := insert_mirror hcap hpick t.depth le_rfl
    (hinv.root_canInsert k) hm (List.mem_singleton.2 rfl) hopen hN hins
  have hroot : dt.root = ρ' t.root := hM.root.trans (hI.agree _ (hm.lt_next hn)).symm
  simp only [VanillaBPlusTree.insert, hins] at heq
  cases s with
  | none =>
      cases heq
      rw [hI.whole rfl] at hdisk
      refine ⟨ρ', { dt with disk := d'.close dt.root N' }, ?_, ?_, hroot, hM.depth⟩
      · simp only [insert, hget, hM.depth, hdisk]
      · rw [hroot]
        exact hI.mirror.close hI.loaded (fun _ hn => hok.size_le hn)
  | some p =>
      obtain ⟨r, b⟩ := p
      obtain ⟨nl, nr, kl, hnl, hnr, hkl, hkr, -⟩ := hspec.halves r b rfl
      obtain ⟨hle, R, rfl, hR⟩ := hI.right r b rfl
      simp only [hnl, hnr, hkl, hkr] at heq
      cases heq
      have hkey : ∀ {x N n}, Loaded ρ' h' d' x N → h'.cells x = some n →
          N.getLeftmostKey = n.getLeftmostKey := by
        rintro x N n ⟨n', b', hn', rfl, -⟩ hx
        rw [hn'] at hx
        cases hx
        exact Node.image_leftmostKey _
      have hne : t.root ≠ r := Nat.ne_of_lt ((hm.lt_next hn).trans_le hle)
      refine ⟨_, _, ?_, grow_mirrors hpick hI.mirror hI.loaded hR hnl hnr hne hok⟩
      simp only [insert, hget, hM.depth, hdisk, hkey hI.loaded hnl, hkey hR hnr, hkl, hkr]

/-- **`delete_key`**. -/
theorem deleteKey_mirrors (hb : 2 ≤ underflowBound capacity) (hM : Mirrors capacity ρ t dt)
    (hinv : t.Inv capacity m G κ) {k : K} {found : Bool}
    (heq : t.deleteKey capacity k = some (t', found)) (hok : t'.heap.Ok capacity) :
    ∃ dt', dt.deleteKey capacity k = some (dt', found) ∧ Mirrors capacity ρ t' dt' := by
  obtain ⟨n, hn, hget, hN, hm, hopen⟩ := hM.load hinv
  have hT : IsTree capacity t.heap G [(κ, t.root)] t.depth κ m :=
    ⟨hinv.tree, hinv.ok, hinv.edge, hinv.map⟩
  obtain ⟨h', del, u, hdel, -⟩ := delete_spec (k := k) hb hT t.depth false le_rfl hinv.plan_root
    ⟨bot_le, key_lt_top k⟩
  obtain ⟨d', N', hdisk, hD⟩ := delete_mirror hb hT t.depth le_rfl hinv.plan_root
    ⟨bot_le, key_lt_top k⟩ hm (List.mem_singleton.2 rfl) hopen hN hdel
  obtain ⟨n', b, hn', rfl, -⟩ := id hD.loaded
  simp only [VanillaBPlusTree.deleteKey, hdel, hn'] at heq
  -- the root stays unless it is an inner node with one child
  have hstay : t' = { t with heap := h' } ∧ found = del →
      Mirrors capacity ρ t' { dt with disk := d'.close dt.root (n'.image ρ b) } := by
    rintro ⟨rfl, rfl⟩
    refine ⟨?_, hM.root, hM.depth⟩
    rw [hM.root]
    exact hD.mirror.close hD.loaded (fun _ hn => hok.size_le hn)
  cases u with
  | false =>
      cases heq
      refine ⟨_, ?_, hstay ⟨rfl, rfl⟩⟩
      simp only [deleteKey, hget, hM.depth, hdisk]
  | true =>
      cases n' with
      | leaf n' =>
          cases heq
          refine ⟨_, ?_, hstay ⟨rfl, rfl⟩⟩
          simp only [deleteKey, hget, hM.depth, hdisk]
          rfl
      | inner n' =>
          obtain ⟨rep, slots, md⟩ := n'
          rcases slots with _ | ⟨⟨kc, c⟩, _ | ⟨s, rest⟩⟩
          · cases heq
            refine ⟨_, ?_, hstay ⟨rfl, rfl⟩⟩
            simp only [deleteKey, hget, hM.depth, hdisk]
            rfl
          · cases heq
            refine ⟨⟨d'.remove dt.root, ρ c, dt.depth - 1⟩, ?_, ?_, rfl, ?_⟩
            · simp only [deleteKey, hget, hM.depth, hdisk]
              rfl
            · show Mirror capacity ρ (h'.free t.root) (d'.remove dt.root) []
              rw [hM.root]
              exact hD.mirror.free hn'
            · show dt.depth - 1 = t.depth - 1
              rw [hM.depth]
          · cases heq
            refine ⟨_, ?_, hstay ⟨rfl, rfl⟩⟩
            simp only [deleteKey, hget, hM.depth, hdisk]
            rfl

/-! ## §3. Sequences of calls. -/

omit [LinearOrder K] in
/-- A new tree. -/
theorem init_mirrors (hpick : ∀ l, (pick l).Perm l) : ∃ ρ,
    Mirrors capacity ρ (VanillaBPlusTree.init : VanillaBPlusTree K V) (init pick) := by
  have hm : Mirror capacity id (Heap.empty : Heap K V) (Disk.empty : Disk K V) [] := by
    refine ⟨nofun, nofun, nofun, fun y => ⟨fun hy => absurd (Or.inr (Nat.zero_le y)) hy, ?_⟩,
      ⟨List.nodup_nil, nofun⟩, nofun, nofun⟩
    rintro ⟨x, n, hn, -⟩
    cases hn
  have hm₁ : Mirror capacity (Function.update id 0 ((Disk.empty : Disk K V).next pick))
      (VanillaBPlusTree.init : VanillaBPlusTree K V).heap ((Disk.empty : Disk K V).allocate pick)
      [0] :=
    hm.alloc_new hpick (n := .leaf ⟨0, none, [], true⟩) rfl
      (Node.below_leaf.2 ⟨Nat.lt_succ_self _, nofun⟩)
  have hcell : (VanillaBPlusTree.init : VanillaBPlusTree K V).heap.cells 0
      = some (.leaf ⟨0, none, [], true⟩) := rfl
  have hm₂ := hm₁.close (N := .leaf ⟨(Disk.empty : Disk K V).next pick, none, [], true⟩)
    ⟨_, true, hcell, rfl, Or.inl rfl⟩ (fun n hn => by
      cases hcell.symm.trans hn
      exact Nat.zero_le _)
  exact ⟨_, hm₂, rfl, rfl⟩

omit [LinearOrder K] in
/-- Every object of a new tree is a node of it. -/
theorem init_planned :
    (VanillaBPlusTree.init : VanillaBPlusTree K V).heap.Planned (singlePlan 0) := by
  intro x n hn
  obtain ⟨rfl, -⟩ := VanillaBPlusTree.cells_init hn
  exact ⟨_, singlePlan_eq.2 ⟨rfl, rfl⟩⟩

/-- **One call** on both trees. -/
theorem call_mirrors (hcap : 3 ≤ capacity) (hpick : ∀ l, (pick l).Perm l)
    (hM : Mirrors capacity ρ t dt) (hinv : t.Inv capacity m G κ) (c : Call K V) :
    ∃ ρ' t' dt' G' κ', t.call capacity c = some (t', VanillaBPlusTree.mapAnswer m c)
      ∧ dt.call pick capacity c = some (dt', VanillaBPlusTree.mapAnswer m c)
      ∧ Mirrors capacity ρ' t' dt'
      ∧ t'.Inv capacity (VanillaBPlusTree.applyCall m c) G' κ'
      ∧ (t.heap.Planned G → t'.heap.Planned G') := by
  have hb := VanillaBPlusTree.two_le_underflowBound hcap
  cases c with
  | insert k v =>
      obtain ⟨t', G', κ', heq, hinv', hplan⟩ :=
        VanillaBPlusTree.insert_planned (by omega) hinv k v
      obtain ⟨ρ', dt', hdisk, hM'⟩ := insert_mirrors (by omega) hpick hM hinv heq hinv'.ok
      exact ⟨ρ', t', dt', G', κ', by simp [VanillaBPlusTree.call, heq, VanillaBPlusTree.mapAnswer],
        by simp [call, hdisk, VanillaBPlusTree.mapAnswer], hM', hinv', hplan⟩
  | deleteKey k =>
      obtain ⟨t', G', κ', heq, hinv', hplan⟩ := VanillaBPlusTree.deleteKey_planned hb hinv k
      obtain ⟨dt', hdisk, hM'⟩ := deleteKey_mirrors hb hM hinv heq hinv'.ok
      exact ⟨ρ, t', dt', G', κ', by simp [VanillaBPlusTree.call, heq, VanillaBPlusTree.mapAnswer],
        by simp [call, hdisk, VanillaBPlusTree.mapAnswer], hM', hinv', hplan⟩
  | search k =>
      obtain ⟨dt', hdisk, hM'⟩ := search_mirrors hM hinv k
      exact ⟨ρ, t, dt', G, κ,
        by simp [VanillaBPlusTree.call, hinv.search_eq k, VanillaBPlusTree.mapAnswer],
        by simp [call, hdisk, VanillaBPlusTree.mapAnswer], hM', hinv, id⟩

/-- **Every sequence of calls** on both trees. -/
theorem run_mirrors (hcap : 3 ≤ capacity) (hpick : ∀ l, (pick l).Perm l) (cs : List (Call K V)) :
    ∀ {ρ : BlkAddress → BlkAddress} {t : VanillaBPlusTree K V} {dt : DiskTree K V}
      {m : K → Option V} {G : Plan K BlkAddress} {κ : K}, Mirrors capacity ρ t dt →
      t.Inv capacity m G κ → t.heap.Planned G →
      ∃ ρ' t' dt' answers G' κ', t.run capacity cs = some (t', answers)
        ∧ dt.run pick capacity cs = some (dt', answers) ∧ Mirrors capacity ρ' t' dt'
        ∧ t'.Inv capacity (cs.foldl VanillaBPlusTree.applyCall m) G' κ' ∧ t'.heap.Planned G' := by
  induction cs with
  | nil =>
      intro ρ t dt m G κ hM hinv hplan
      exact ⟨ρ, t, dt, [], G, κ, rfl, rfl, hM, hinv, hplan⟩
  | cons c cs ih =>
      intro ρ t dt m G κ hM hinv hplan
      obtain ⟨ρ₁, t₁, dt₁, G₁, κ₁, hcall, hdisk, hM₁, hinv₁, hplan₁⟩ :=
        call_mirrors hcap hpick hM hinv c
      obtain ⟨ρ', t', dt', answers, G', κ', hrun, hrund, hM', hinv', hplan'⟩ :=
        ih hM₁ hinv₁ (hplan₁ hplan)
      exact ⟨ρ', t', dt', VanillaBPlusTree.mapAnswer m c :: answers, G', κ',
        by simp [VanillaBPlusTree.run, hcall, hrun], by simp [run, hdisk, hrund], hM', hinv', hplan'⟩

end DiskTree

end NvmTree
