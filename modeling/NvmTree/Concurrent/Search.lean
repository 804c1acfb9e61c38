/-
  NvmTree.Concurrent.Search — `search_with_concurrency_control` keeps the invariant.

  A search couples read locks from the root to the leaf that is responsible for its
  key, and starts again when it got the lock of a node that is no longer the root.  It
  takes effect when it reads the leaf, or an inner node whose slots are all above its
  key.

  Main result: `searchStep_inv`.
-/
import NvmTree.Concurrent.Accesses

namespace NvmTree

open RangeTree Linearize

namespace ConcurrentBPlusTree

variable {T K V : Type*} [DecidableEq T] [LinearOrder K] {cap : Nat} {m₀ m : K → Option V}
  {s s' : State T K V} {E : Store K V BlkAddress} {G : Plan K BlkAddress}
  {order : List (Nat × Op K V × Answer V)} {t : T} {id : Nat} {key : K}

/-- A search takes effect with what the map has for its key. -/
theorem Inv.answer (h : Inv cap m₀ s E G m order) {node : BlkAddress} {found : Option V}
    (ht : s.threads t = .searching id key (.read node)) (hclean : (s.world E G).Clean t node)
    (hfound : found = m key) :
    ∃ order', Inv cap m₀ (s.goto t (.searching id key (.unlock node found))) E G m order' := by
  subst hfound
  have hstatus : (s.threads t).status = some (id, .search key, none) := by rw [ht]; rfl
  have hcommit := h.ledger.commit hstatus
  exact ⟨_, h.goto (by rw [ht]; rfl) (by rw [ht]; exact fun x hx => hx) (.refl _) h.ok hclean hcommit⟩

theorem searchStep_read {node : BlkAddress} (h : Inv cap m₀ s E G m order)
    (ht : s.threads t = .searching id key (.read node))
    (hstep : searchStep s t id key (.read node) = some s') :
    ∃ order', Inv cap m₀ s' E G m order' := by
  have hk := h.know t
  rw [ht] at hk
  obtain ⟨hat, hclean⟩ : (s.world E G).At t node key ∧ (s.world E G).Clean t node := hk
  obtain ⟨sp, hG, hspan⟩ := hat.plan
  obtain ⟨b, hb, -, hsize, hE⟩ := h.shows ⟨sp, hG⟩ hclean
  cases b with
  | leaf rep sib es =>
      simp only [searchStep, hb, Option.map_some, Block.deserialize, Option.some.injEq] at hstep
      rw [← hstep]
      refine h.answer ht hclean ?_
      -- the leaf decides its keys
      obtain ⟨hsorted, -⟩ := h.ok.sorted_leaf hG hE
      refine Option.ext fun v => ?_
      exact (LeafNode.search_eq_some (n := ⟨rep, sib, es, false⟩) hsorted).trans
        (h.ok.lookup hat hE v).symm
  | inner rep slots =>
      obtain ⟨hsorted, -, -⟩ := h.ok.sorted_inner hG hE
      simp only [searchStep, hb, Option.map_some, Block.deserialize] at hstep
      rcases InnerNode.locateChildIndex_cases (n := ⟨rep, slots, false⟩) key hsorted with
        ⟨hidx, hlt⟩ | ⟨xs, ki, child, ys, hslots, hidx, hki, hys⟩
      · simp only [hidx, Int.reduceNeg, Int.reduceLT, if_true, Option.some.injEq] at hstep
        rw [← hstep]
        exact h.answer ht hclean (h.ok.lookup_below hat hE hlt).symm
      · obtain rfl : slots = xs ++ (ki, child) :: ys := hslots
        have hnn : ¬ ((xs.length : Int) < 0) := by omega
        have hget : (xs ++ (ki, child) :: ys)[xs.length]? = some (ki, child) := by simp
        have hmem : (ki, child) ∈ xs ++ (ki, child) :: ys := by simp
        have hne := h.ok.child_ne hG hE hmem
        simp only [hidx, if_neg hnn, Int.toNat_natCast, hget, Option.some.injEq] at hstep
        rw [← hstep]
        refine ⟨order, h.pass (by rw [ht]; rfl) (by rw [ht]; exact fun x hx => hx) (by rw [ht]; rfl)
          ⟨h.ok.descend hat hclean.1 hE hki hys, ?_⟩⟩
        intro p hp
        obtain rfl : node = p := Option.some.inj hp
        exact ⟨hclean, ⟨sp, hG⟩, hne⟩

/-- **Every step of a search keeps the invariant.** -/
theorem searchStep_inv {pc : SearchPc V} (h : Inv cap m₀ s E G m order)
    (ht : s.threads t = .searching id key pc) (hstep : searchStep s t id key pc = some s') :
    ∃ order', Inv cap m₀ s' E G m order' := by
  have hk : SearchOk (s.world E G) t key pc := by
    have := h.know t
    rw [ht] at this
    exact this
  cases pc with
  | arg =>
      cases hstep
      exact ⟨order, h.pass (by rw [ht]; rfl) (by rw [ht]; nofun) (by rw [ht]; rfl)
        ⟨⟨_, h.ok.plan_root⟩, rfl⟩⟩
  | lock node is_root parent =>
      rw [searchStep] at hstep
      cases is_root with
      | true =>
          obtain ⟨hnode, rfl⟩ := hk
          rw [if_pos rfl] at hstep
          refine ⟨order, h.acquire hstep hnode (by rw [ht]; rfl) (by rw [ht]; simp [Thread.nodes,
            SearchPc.nodes]) (by rw [ht]; rfl) ?_⟩
          intro w' hw' hok hgot hkeep hclean
          exact ⟨hw' ▸ hnode, hclean⟩
      | false =>
          obtain ⟨hat, hparent⟩ := hk
          rw [if_neg nofun] at hstep
          cases parent with
          | none =>
              refine ⟨order, h.acquire hstep hat.toNear.plan (by rw [ht]; rfl)
                (by rw [ht]; simp [Thread.nodes, SearchPc.nodes, SearchPc.locked])
                (by rw [ht]; rfl) ?_⟩
              intro w' hw' hok hgot hkeep hclean
              exact ⟨hw' ▸ hat.withMode (fun x => held_acquired hkeep hclean), hclean⟩
          | some p =>
              obtain ⟨hpclean, -, hne⟩ := hparent p rfl
              refine ⟨order, h.acquire hstep hat.toNear.plan (by rw [ht]; rfl)
                (by rw [ht]; simp [Thread.nodes, SearchPc.nodes, SearchPc.locked])
                (by rw [ht]; rfl) ?_⟩
              intro w' hw' hok hgot hkeep hclean
              refine ⟨hw' ▸ hat.withMode (fun x => held_acquired hkeep hclean), hclean,
                ⟨held_acquired hkeep hclean hpclean.1, ?_⟩, hne⟩
              rw [← hw']
              exact hpclean.2
  | check node =>
      cases hstep
      obtain ⟨hnode, hclean⟩ := hk
      by_cases hroot : s.root ≠ node
      · rw [if_pos hroot]
        exact ⟨order, h.pass (by rw [ht]; rfl) (by rw [ht]; exact fun x hx => hx) (by rw [ht]; rfl)
          ⟨hnode, hclean⟩⟩
      · rw [if_neg hroot]
        obtain rfl := not_not.1 hroot
        exact ⟨order, h.pass (by rw [ht]; rfl) (by rw [ht]; exact fun x hx => hx) (by rw [ht]; rfl)
          ⟨h.ok.at_root hclean.1 key, hclean⟩⟩
  | retry node =>
      cases hstep
      exact ⟨order, h.release hk.2 (by rw [ht]; rfl)
        (by rw [ht]; simp [Thread.nodes, SearchPc.nodes]) (by rw [ht]; rfl) (fun _ _ _ _ => trivial)⟩
  | unlockParent node parent =>
      cases hstep
      obtain ⟨hat, hclean, hpclean, hne⟩ := hk
      refine ⟨order, h.release hpclean (by rw [ht]; rfl)
        (by rw [ht]; simp [Thread.nodes, SearchPc.nodes]) (by rw [ht]; rfl) ?_⟩
      intro w' hw' hok hkeep
      have hclean' := clean_released hw' (hkeep node hne) hclean
      exact ⟨hw' ▸ hat.withMode_held hclean'.1, hclean'⟩
  | read node => exact searchStep_read h ht hstep
  | unlock node found =>
      cases hstep
      exact ⟨order, h.release hk (by rw [ht]; rfl)
        (by rw [ht]; simp [Thread.nodes, SearchPc.nodes]) (by rw [ht]; rfl) (fun _ _ _ _ => trivial)⟩
  | ret found =>
      cases hstep
      exact ⟨order, h.respond (by rw [ht]; rfl) (by rw [ht]; rfl) (by rw [ht]; rfl)⟩

end ConcurrentBPlusTree

end NvmTree
