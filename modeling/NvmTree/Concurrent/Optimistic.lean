/-
  NvmTree.Concurrent.Optimistic — `insert_with_optimistic_concurrency_control` keeps the
  invariant.

  The optimistic insertion couples locks like a search, in read mode above the leaf and
  in write mode at the leaf.  Which mode it takes depends on the height it has read: the
  height belongs to the root id read before it, or the root check fails.
-/
import NvmTree.Concurrent.Accesses

namespace NvmTree

open RangeTree Linearize

namespace ConcurrentBPlusTree

variable {T K V : Type*} [DecidableEq T] [LinearOrder K] {cap : Nat} {m₀ m : K → Option V}
  {s s' : State T K V} {E : Store K V BlkAddress} {G : Plan K BlkAddress}
  {order : List (Nat × Op K V × Answer V)} {t : T} {id : Nat} {key : K} {value : V}
  {node : BlkAddress} {depth : Int}

omit [DecidableEq T] [LinearOrder K] in
/-- At depth 1 the lock is taken in write mode. -/
theorem writes_of_lockType {w : World T K V BlkAddress}
    (hgot : w.mode t node = some (lockType depth)) (hdepth : depth = 1) : w.Writes t node := by
  unfold World.Writes
  rw [hgot, hdepth]
  rfl

theorem optLock_sound {is_root : Bool} {parent : Option BlkAddress}
    (h : Inv cap m₀ s E G m order)
    (ht : s.threads t = .inserting id key value (.optLock node depth is_root parent))
    (hstep : insertStep cap s t id key value (.optLock node depth is_root parent) = some s') :
    s'.SoundFrom cap m₀ G := by
  have hk := h.know t
  rw [ht] at hk
  rw [insertStep] at hstep
  cases is_root with
  | true =>
      obtain ⟨hnode, rfl, d, hd, hroot⟩ := hk
      rw [if_pos rfl] at hstep
      refine Inv.same (h.acquire hstep hnode (by rw [ht]; rfl)
        (by rw [ht]; simp [Thread.nodes, InsertPc.nodes]) (by rw [ht]; rfl) ?_)
      intro w' hw' hok hgot hkeep hclean
      refine ⟨hw' ▸ hnode, hclean, writes_of_lockType hgot, d, hd, ?_⟩
      rw [← hw']
      exact hroot
  | false =>
      obtain ⟨hat, ⟨l, hl, hlevel⟩, hparent⟩ := hk
      rw [if_neg nofun] at hstep
      cases parent with
      | none =>
          refine Inv.same (h.acquire hstep hat.toNear.plan (by rw [ht]; rfl)
            (by rw [ht]; simp [Thread.nodes, InsertPc.nodes, InsertPc.optLocked])
            (by rw [ht]; rfl) ?_)
          intro w' hw' hok hgot hkeep hclean
          exact ⟨hw' ▸ hat.withMode (fun x => held_acquired hkeep hclean), hclean,
            writes_of_lockType hgot, l, hl, hw' ▸ hlevel⟩
      | some p =>
          obtain ⟨hpclean, -, hne⟩ := hparent p rfl
          refine Inv.same (h.acquire hstep hat.toNear.plan (by rw [ht]; rfl)
            (by rw [ht]; simp [Thread.nodes, InsertPc.nodes, InsertPc.optLocked])
            (by rw [ht]; rfl) ?_)
          intro w' hw' hok hgot hkeep hclean
          refine ⟨hw' ▸ hat.withMode (fun x => held_acquired hkeep hclean), hclean,
            ⟨held_acquired hkeep hclean hpclean.1, ?_⟩, hne, writes_of_lockType hgot, l, hl,
            hw' ▸ hlevel⟩
          rw [← hw']
          exact hpclean.2

theorem optCheck_sound (h : Inv cap m₀ s E G m order)
    (ht : s.threads t = .inserting id key value (.optCheck node depth))
    (hstep : insertStep cap s t id key value (.optCheck node depth) = some s') :
    s'.SoundFrom cap m₀ G := by
  have hk := h.know t
  rw [ht] at hk
  obtain ⟨hnode, hclean, hwrites, d, hd, hroot⟩ := hk
  cases hstep
  by_cases hne : s.root ≠ node
  · rw [if_pos hne]
    exact Inv.same (h.pass (by rw [ht]; rfl) (by rw [ht]; exact fun x hx => hx) (by rw [ht]; rfl)
      ⟨hnode, hclean⟩)
  · -- the root has not changed since its id was read, so the height is that of the tree
    rw [if_neg hne]
    obtain rfl := not_not.1 hne
    have hdepth : d = s.depth := hroot rfl
    exact Inv.same (h.pass (by rw [ht]; rfl) (by rw [ht]; exact fun x hx => hx) (by rw [ht]; rfl)
      ⟨h.ok.at_root hclean.1 key, hclean, hwrites, d, hd, _, h.ok.plan_root, hdepth.symm⟩)

theorem optUnlockParent_sound {parent : BlkAddress} (h : Inv cap m₀ s E G m order)
    (ht : s.threads t = .inserting id key value (.optUnlockParent node depth parent))
    (hstep : insertStep cap s t id key value (.optUnlockParent node depth parent) = some s') :
    s'.SoundFrom cap m₀ G := by
  have hk := h.know t
  rw [ht] at hk
  obtain ⟨hat, hclean, hpclean, hne, hwrites, l, hl, hlevel⟩ := hk
  cases hstep
  refine Inv.same (h.release hpclean (by rw [ht]; rfl) (by rw [ht]; simp [Thread.nodes, InsertPc.nodes])
    (by rw [ht]; rfl) ?_)
  intro w' hw' hok hkeep
  have hclean' := clean_released hw' (hkeep node hne) hclean
  exact ⟨hw' ▸ hat.withMode_held hclean'.1, hclean',
    fun hone => (hkeep node hne).trans (hwrites hone), l, hl, hw' ▸ hlevel⟩

/-- Reading the node: a leaf is at level 1, and so is locked in write mode. -/
theorem optRead_sound (h : Inv cap m₀ s E G m order)
    (ht : s.threads t = .inserting id key value (.optRead node depth))
    (hstep : insertStep cap s t id key value (.optRead node depth) = some s') :
    s'.SoundFrom cap m₀ G := by
  have hk := h.know t
  rw [ht] at hk
  obtain ⟨hat, hclean, hwrites, l, hl, sp, hG, hlevel⟩ := hk
  obtain ⟨b, hb, hself, hsize, hE⟩ := h.shows ⟨sp, hG⟩ hclean
  cases b with
  | leaf rep sib es =>
      obtain rfl : rep = node := hself
      obtain ⟨hsorted, hone⟩ := h.ok.sorted_leaf hG hE
      simp only [insertStep, optStep, hb, Option.map_some, Block.deserialize] at hstep
      split at hstep
      · cases hstep
        exact Inv.same (h.pass (by rw [ht]; rfl) (by rw [ht]; exact fun x hx => hx) (by rw [ht]; rfl)
          hclean)
      · next hfull =>
          cases hstep
          have hroom : (⟨rep, sib, es, false⟩ : LeafNode K V).size < cap :=
            lt_of_le_of_ne hsize hfull
          obtain ⟨heq, hlen⟩ := LeafNode.insert_of_room key value hsorted hroom
          rw [heq]
          exact Inv.same (h.pass (by rw [ht]; rfl) (by rw [ht]; exact fun x hx => hx) (by rw [ht]; rfl)
            ⟨hat, hclean, hwrites (by omega), es, sib, hE, rfl, hlen⟩)
  | inner rep slots =>
      obtain ⟨hsorted, -, htwo⟩ := h.ok.sorted_inner hG hE
      simp only [insertStep, optStep, hb, Option.map_some, Block.deserialize] at hstep
      rcases InnerNode.locateChildIndex_cases (n := ⟨rep, slots, false⟩) key hsorted with
        ⟨hidx, hlt⟩ | ⟨xs, ki, child, ys, hslots, hidx, hki, hys⟩
      · simp only [hidx, Int.reduceNeg, Int.reduceLT, if_true, Option.some.injEq] at hstep
        rw [← hstep]
        exact Inv.same (h.pass (by rw [ht]; rfl) (by rw [ht]; exact fun x hx => hx) (by rw [ht]; rfl)
          hclean)
      · obtain rfl : slots = xs ++ (ki, child) :: ys := hslots
        have hnn : ¬ ((xs.length : Int) < 0) := by omega
        have hget : (xs ++ (ki, child) :: ys)[xs.length]? = some (ki, child) := by simp
        have hmem : (ki, child) ∈ xs ++ (ki, child) :: ys := by simp
        obtain ⟨sc, hsc, hlc⟩ := h.ok.level_child hG hE hmem
        simp only [hidx, if_neg hnn, Int.toNat_natCast, hget, Option.some.injEq] at hstep
        rw [← hstep]
        refine Inv.same (h.pass (by rw [ht]; rfl) (by rw [ht]; exact fun x hx => hx) (by rw [ht]; rfl)
          ⟨h.ok.descend hat hclean.1 hE hki hys, ⟨sc.level, by omega, sc, hsc, rfl⟩, ?_⟩)
        intro p hp
        obtain rfl : node = p := Option.some.inj hp
        exact ⟨hclean, ⟨sp, hG⟩, h.ok.child_ne hG hE hmem⟩

theorem optWrite_sound {leaf : LeafNode K V} (h : Inv cap m₀ s E G m order)
    (ht : s.threads t = .inserting id key value (.optWrite node leaf))
    (hstep : insertStep cap s t id key value (.optWrite node leaf) = some s') :
    s'.SoundFrom cap m₀ G := by
  have hk := h.know t
  rw [ht] at hk
  obtain ⟨hat, -, hwrites, es, next, hE, rfl, hsize⟩ := hk
  cases hstep
  exact h.writeEntry (by rw [ht]; rfl) rfl (by rw [ht]; rfl) (by rw [ht]; exact fun x hx => hx)
    hwrites hat hE hsize (fun w' hclean _ => hclean)

end ConcurrentBPlusTree

end NvmTree
