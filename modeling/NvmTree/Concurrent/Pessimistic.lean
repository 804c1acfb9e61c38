/-
  NvmTree.Concurrent.Pessimistic — `insert_with_pessimistic_concurrency_control` keeps the
  invariant.

  The pessimistic insertion locks the whole path in write mode.  On the way back it
  writes its leaf, or the halves of it, and releases each node before its parent is
  rewritten: by then the upper half is linked in the tree to come, and whoever could
  read the parent has to wait for its lock.  A root that is split gets a new root over
  it while its own lock is still held.
-/
import NvmTree.Concurrent.Accesses

namespace NvmTree

open RangeTree Linearize

namespace ConcurrentBPlusTree

variable {T K V : Type*} [DecidableEq T] [LinearOrder K] {cap : Nat} {m₀ m : K → Option V}
  {s s' : State T K V} {E : Store K V BlkAddress} {G : Plan K BlkAddress}
  {order : List (Nat × Op K V × Answer V)} {t : T} {id : Nat} {key : K} {value : V}
  {node : BlkAddress} {is_root : Bool} {parents : List (Frame K)}

/-! ## §1. Down to the leaf. -/

theorem lock_sound (h : Inv cap m₀ s E G m order)
    (ht : s.threads t = .inserting id key value (.lock node is_root parents))
    (hstep : insertStep cap s t id key value (.lock node is_root parents) = some s') :
    s'.SoundFrom cap m₀ G := by
  have hk := h.know t
  rw [ht] at hk
  rw [insertStep] at hstep
  cases is_root with
  | true =>
      obtain ⟨hnode, rfl⟩ := hk
      rw [if_pos rfl] at hstep
      refine Inv.same (h.acquire hstep hnode (by rw [ht]; rfl)
        (by rw [ht]; simp [Thread.nodes, InsertPc.nodes]) (by rw [ht]; rfl) ?_)
      intro w' hw' hok hgot hkeep hclean
      exact ⟨hw' ▸ hnode, hclean, hgot⟩
  | false =>
      obtain ⟨hat, hne, hpath, hframes⟩ := hk
      rw [if_neg nofun] at hstep
      refine Inv.same (h.acquire hstep hat.toNear.plan (by rw [ht]; rfl)
        (by rw [ht]; simp [Thread.nodes, InsertPc.nodes]) (by rw [ht]; rfl) ?_)
      intro w' hw' hok hgot hkeep hclean
      refine ⟨hw' ▸ hat.withMode (fun x => held_acquired hkeep hclean), hclean, hgot, ?_,
        by simp [hne], hframes⟩
      rw [← hw']
      refine hpath.withMode (fun f hf => hkeep _ (hpath.ne h.ok hf)) (fun hnil => ?_)
      exact absurd (List.map_eq_nil_iff.1 hnil) hne

theorem check_sound (h : Inv cap m₀ s E G m order)
    (ht : s.threads t = .inserting id key value (.check node))
    (hstep : insertStep cap s t id key value (.check node) = some s') : s'.SoundFrom cap m₀ G := by
  have hk := h.know t
  rw [ht] at hk
  obtain ⟨hnode, hclean, hwrites⟩ := hk
  cases hstep
  by_cases hne : s.root ≠ node
  · rw [if_pos hne]
    exact Inv.same (h.pass (by rw [ht]; rfl) (by rw [ht]; exact fun x hx => hx) (by rw [ht]; rfl)
      ⟨hnode, hclean⟩)
  · rw [if_neg hne]
    obtain rfl := not_not.1 hne
    exact Inv.same (h.pass (by rw [ht]; rfl) (by rw [ht]; exact fun x hx => hx) (by rw [ht]; rfl)
      ⟨h.ok.at_root hclean.1 key, hclean, hwrites, ⟨rfl, rfl, hclean.1⟩, by simp, trivial⟩)

/-- Reading the node: an inner node becomes a frame, with its first key lowered when the
key is below all its slots. -/
theorem read_sound (h : Inv cap m₀ s E G m order)
    (ht : s.threads t = .inserting id key value (.read node is_root parents))
    (hstep : insertStep cap s t id key value (.read node is_root parents) = some s') :
    s'.SoundFrom cap m₀ G := by
  have hk := h.know t
  rw [ht] at hk
  obtain ⟨hat, hclean, hwrites, hpath, hroot, hframes⟩ :
    Descending cap (s.world E G) t key node is_root parents := hk
  obtain ⟨sp, hG, hspan⟩ := hat.plan
  obtain ⟨b, hb, hself, hsize, hE⟩ := h.shows ⟨sp, hG⟩ hclean
  cases b with
  | leaf rep sib es =>
      obtain rfl : rep = node := hself
      simp only [insertStep, readStep, hb, Option.map_some, Block.deserialize,
        Option.some.injEq] at hstep
      rw [← hstep]
      exact Inv.same (h.pass (by rw [ht]; rfl) (by rw [ht]; exact fun x hx => hx)
        (by rw [ht]; rfl) ⟨⟨hat, hclean, hwrites, hpath, hroot, hframes⟩, hE, rfl, hsize⟩)
  | inner rep slots =>
      obtain rfl : rep = node := hself
      obtain ⟨hsorted, hnil, -⟩ := h.ok.sorted_inner hG hE
      simp only [insertStep, readStep, hb, Option.map_some, Block.deserialize] at hstep
      rcases InnerNode.locateChildIndex_cases (n := ⟨rep, slots, false⟩) key hsorted with
        ⟨hidx, hlt⟩ | ⟨xs, ki, child, ys, hslots, hidx, hki, hys⟩
      · obtain ⟨⟨k₀, child⟩, rest, rfl⟩ := List.exists_cons_of_ne_nil hnil
        simp only [hidx, Int.reduceNeg, Int.reduceLT, if_true, InnerNode.setFirstKey,
          Int.reduceToNat, List.modify_zero_cons, List.getElem?_cons_zero,
          Option.some.injEq] at hstep
        obtain ⟨hok, hguar, hchild, hpath'⟩ := h.ok.push_lower hat hwrites hpath hE hlt hsize
        rw [← hstep]
        exact Inv.same (h.goto (by rw [ht]; rfl) (by rw [ht]; exact fun x hx => hx)
          (.one h.ok hok hguar) hok ⟨hchild, nofun, hpath', hroot, rfl, hframes⟩
          (h.ledger_same (by rw [ht]; rfl)))
      · obtain rfl : slots = xs ++ (ki, child) :: ys := hslots
        have hnn : ¬ ((xs.length : Int) < 0) := by omega
        have hget : (xs ++ (ki, child) :: ys)[xs.length]? = some (ki, child) := by simp
        simp only [hidx, if_neg hnn, Int.toNat_natCast, hget, Option.some.injEq] at hstep
        rw [← hstep]
        exact Inv.same (h.pass (by rw [ht]; rfl) (by rw [ht]; exact fun x hx => hx)
          (by rw [ht]; rfl) ⟨h.ok.descend hat hclean.1 hE hki hys, nofun,
            hpath.push ⟨sp, hG⟩ hwrites hclean hE hki hsize, hroot, rfl, hframes⟩)

/-! ## §2. The leaf. -/

/-- A path does not lead through a block that was just allocated. -/
theorem Inv.path_alloc (h : Inv cap m₀ s E G m order) {w' : World T K V BlkAddress}
    {ins : Option (K × BlkAddress)} {fs : List (World.Frame K BlkAddress)}
    (hw' : (s.world E G).withMode w'.mode = w')
    (hkeep : ∀ x, x ≠ s.allocator.next → w'.mode t x = s.mode t x)
    (hpath : (s.world E G).Path t key cap ins fs node) : w'.Path t key cap ins fs node := by
  obtain ⟨sp, hsp⟩ := hpath.plan h.ok
  have hne : ∀ {x sx}, G x = some sx → x ≠ s.allocator.next := by
    rintro x sx hx rfl
    cases h.next_unused.1.symm.trans hx
  rw [← hw']
  refine hpath.withMode (fun f hf => hkeep _ ?_) (fun _ => hkeep _ (hne hsp))
  obtain ⟨sf, hsf, -⟩ := hpath.level_lt h.ok hsp f hf
  exact hne hsf

theorem leaf_sound (hcap : 2 ≤ cap) {leaf : LeafNode K V} (h : Inv cap m₀ s E G m order)
    (ht : s.threads t = .inserting id key value (.leaf node is_root parents leaf))
    (hstep : insertStep cap s t id key value (.leaf node is_root parents leaf) = some s') :
    s'.SoundFrom cap m₀ G := by
  have hk := h.know t
  rw [ht] at hk
  obtain ⟨⟨hat, hclean, hwrites, hpath, hroot, hframes⟩, hE, rfl, hsize⟩ := hk
  obtain ⟨sp, hG, hspan⟩ := hat.plan
  obtain ⟨hsorted, -⟩ := h.ok.sorted_leaf hG hE
  rcases LeafNode.insertWithSplitSupport_cases key value hsorted hcap hsize s.allocator.next with
    ⟨heq, hlen⟩ | ⟨L, b, v, R, heq, happ, hL, hlL, hlR, -⟩
  · simp only [insertStep, heq, Option.some.injEq] at hstep
    rw [← hstep]
    exact h.writeEntry (by rw [ht]; rfl) rfl (by rw [ht]; rfl) (by rw [ht]; exact fun x hx => hx)
      hwrites hat hE hlen (fun w' hclean' hpaths => ⟨hclean', .inr (hpaths _ hpath), hframes⟩)
  · simp only [insertStep, heq, Option.some.injEq] at hstep
    rw [← hstep]
    refine Inv.same (h.alloc (by rw [ht]; simp [Thread.fresh, InsertPc.fresh, Node.selfRep])
      (by rw [ht]; exact fun x hx => hx) (by rw [ht]; rfl) ?_)
    intro w' hw' hok hkeep hfresh
    have hne : leaf.selfRep ≠ s.allocator.next := by
      intro he
      rw [he] at hG
      cases h.next_unused.1.symm.trans hG
    have hclean' := clean_released hw' (hkeep _ hne) hclean
    refine ⟨⟨h.path_alloc hw' hkeep hpath, hroot, hframes, rfl, hlL, hlR, hfresh⟩,
      hw' ▸ hat.withMode_held hclean'.1, hclean', (hkeep _ hne).trans hwrites, leaf.entries,
      leaf.rightSibling, ?_, ?_⟩
    · rw [← hw']
      exact hE
    · rw [← happ]
      exact .leaf hL

/-! ## §3. The halves of a split node. -/

theorem writeLeft_sound {left right : Node K V} {boundary_key : K}
    (h : Inv cap m₀ s E G m order)
    (ht : s.threads t = .inserting id key value
      (.writeLeft node is_root parents left right boundary_key))
    (hstep : insertStep cap s t id key value
      (.writeLeft node is_root parents left right boundary_key) = some s') :
    s'.SoundFrom cap m₀ G := by
  have hk := h.know t
  rw [ht] at hk
  cases hstep
  cases left with
  | leaf left =>
      -- the insertion takes effect: the tree has the new entry, in a leaf not yet cut
      obtain ⟨hsplit, hat, -, hwrites, es, next, hE, hhalf⟩ := hk
      obtain rfl : left.selfRep = node := hsplit.left_rep
      obtain ⟨hok, hguar⟩ := h.ok.setEntry (v := value) hwrites hat hE
      refine Inv.same (h.writeBlock rfl hsplit.left_size (.one h.ok hok hguar) hok hwrites
        (by rw [ht]; rfl) (by rw [ht]; exact fun x hx => hx) ?_
        (h.ledger.commit (by rw [ht]; rfl)))
      refine ⟨⟨(hsplit.path.setE h.ok).writeRaw hok, hsplit.is_root, hsplit.frames,
        hsplit.left_rep, hsplit.left_size, hsplit.right_size, hsplit.fresh⟩, ?_,
        Function.update_self ..⟩
      exact ⟨hwrites, hsplit.fresh, _, Function.update_self .., hhalf⟩
  | inner left =>
      obtain ⟨hsplit, hcut⟩ := hk
      refine Inv.same (h.writeBlock hsplit.left_rep hsplit.left_size (.refl _) h.ok hcut.writes
        (by rw [ht]; rfl) (by rw [ht]; exact fun x hx => hx) ?_ (h.ledger_same (by rw [ht]; rfl)))
      exact ⟨⟨hsplit.path.writeRaw h.ok, hsplit.is_root, hsplit.frames, hsplit.left_rep,
        hsplit.left_size, hsplit.right_size, hsplit.fresh⟩, ⟨hcut.writes, hcut.fresh, hcut.whole⟩,
        Function.update_self ..⟩

/-- The modes when a thread gives up its new blocks: these are not locked. -/
theorem Inv.mode_drop (h : Inv cap m₀ s E G m order) (s' : State T K V) {th : Thread K V}
    (hs' : s'.threads = Function.update s.threads t th) (hlocks : s'.locks = s.locks)
    (hnil : th.fresh = []) :
    (∀ j x, j ≠ t ∨ x ∉ (s.threads t).fresh → s'.mode j x = s.mode j x)
      ∧ ∀ x ∈ (s.threads t).fresh, s'.mode t x = none := by
  constructor
  · intro j x hne
    unfold State.mode
    rw [hs', hlocks]
    by_cases hj : j = t
    · subst hj
      rw [Function.update_self, hnil, if_neg List.not_mem_nil,
        if_neg (hne.resolve_left fun hn => hn rfl)]
    · rw [Function.update_of_ne hj]
  · intro x hx
    unfold State.mode
    rw [hs', hlocks, Function.update_self, hnil, if_neg List.not_mem_nil]
    by_contra hne
    obtain ⟨-, sp, hsp⟩ := h.locked t x hne
    have hnone : G x = none := (h.know t).fresh hx
    cases hnone.symm.trans hsp

theorem writeRight_sound {left right : Node K V} {boundary_key : K}
    (h : Inv cap m₀ s E G m order)
    (ht : s.threads t = .inserting id key value
      (.writeRight node is_root parents left right boundary_key))
    (hstep : insertStep cap s t id key value
      (.writeRight node is_root parents left right boundary_key) = some s') :
    s'.SoundFrom cap m₀ G := by
  have hk := h.know t
  rw [ht] at hk
  obtain ⟨hsplit, hcut, hraw⟩ := hk
  have hrep : right.serialize.selfRep = right.selfRep := by cases right <;> rfl
  have hsize : right.serialize.deserialize.size ≤ cap := by
    cases right <;> exact hsplit.right_size
  have hshape : right.serialize.shape = right.shape := by cases right <;> rfl
  have hne := hcut.ne (hsplit.path.plan h.ok)
  cases hstep
  cases parents with
  | nil =>
      rw [if_pos (hsplit.is_root.2 rfl)]
      obtain ⟨-, hroot, -⟩ := hsplit.path
      refine Inv.same (h.writeBlock hrep hsize (.refl _) h.ok hcut.fresh.1 (by rw [ht]; rfl)
        (by rw [ht]; exact fun x hx => hx) ?_ (h.ledger_same (by rw [ht]; rfl)))
      rw [hshape]
      exact ⟨⟨hcut.writes, hcut.fresh, hcut.whole⟩, hsplit.left_rep,
        (Function.update_of_ne hne.symm ..).trans hraw, Function.update_self .., hroot⟩
  | cons f parents =>
      -- the upper half is linked in the tree, and the thread gives it up
      rw [if_neg (fun hr => absurd (hsplit.is_root.1 hr) nofun)]
      generalize hth : Thread.inserting id key value
        (.unlock node (f :: parents) (some ⟨right.selfRep, boundary_key⟩)) = th
      have hnil : th.fresh = [] := by rw [← hth]; rfl
      obtain ⟨hkeep, hdrop⟩ := h.mode_drop (s.write t right.selfRep right.serialize th) rfl rfl hnil
      rw [ht] at hkeep hdrop
      obtain ⟨E', G', hlink⟩ := h.ok.writeLink hsplit.path hcut
        (μ := (s.write t right.selfRep right.serialize th).mode)
        (fun j x hx => hkeep j x (hx.imp_right fun hne hm => hne (List.mem_singleton.1 hm)))
        (hdrop _ List.mem_cons_self)
      have hleft : Function.update (s.world E G).raw node (some left.shape) = s.raw := by
        rw [← hraw]
        exact Function.update_eq_self ..
      obtain ⟨hok, hguars, hpath, hclean, -, hplan⟩ := hlink
        ((s.write t right.selfRep right.serialize th).world E' G') (by
          unfold State.world at hleft ⊢
          rw [raw_write, hshape, hleft]
          rfl)
      have hst : th.status = (s.threads t).status := by rw [ht, ← hth]; rfl
      refine ⟨E', G', m, order, h.write hrep hsize hguars hok (by rw [hnil]; nofun) ?_ ?_ ?_
        (h.ledger_same hst), keepsLevels hguars⟩
      · rw [ht]
        exact fun x hx => hplan x fun he => hx (List.mem_singleton.2 he)
      · rw [ht, ← hth]
        exact fun x hx => hx
      · subst hth
        exact ⟨hclean, .inr hpath, hsplit.frames⟩

/-! ## §4. A new root. -/

theorem newRoot_sound {left right : Node K V} {boundary_key : K} (h : Inv cap m₀ s E G m order)
    (ht : s.threads t = .inserting id key value (.newRoot node left right boundary_key))
    (hstep : insertStep cap s t id key value (.newRoot node left right boundary_key) = some s') :
    s'.SoundFrom cap m₀ G := by
  have hk := h.know t
  rw [ht] at hk
  obtain ⟨hcut, hrep, hleft, hright, hroot⟩ : Growing (s.world E G) t node left right boundary_key := hk
  have hplan : ∃ sp, G node = some sp := ⟨_, hroot ▸ h.ok.plan_root⟩
  obtain ⟨hb, kl, hkl, hmem, hmin⟩ := h.ok.cut_heads hcut hplan
  rw [← Node.getLeftmostKey_eq] at hb hkl
  simp only [insertStep, hb, hkl, Option.some.injEq] at hstep
  rw [← hstep]
  obtain ⟨hnext, hnot, -⟩ := h.next_unused
  have hnode : node ≠ s.allocator.next := by
    rintro rfl
    obtain ⟨sp, hsp⟩ := hplan
    cases hnext.symm.trans hsp
  have hne : right.selfRep ≠ s.allocator.next := by
    intro he
    refine hnot t ?_
    rw [ht, ← he]
    exact List.mem_singleton.2 rfl
  refine Inv.same (h.alloc (fun x => ?_) (by rw [ht]; exact fun x hx => hx) (by rw [ht]; rfl) ?_)
  · rw [ht]
    simp [Thread.fresh, InsertPc.fresh, InnerNode.ofChildren, InnerNode.markModified, or_comm]
  · intro w' hw' hok hkeep hfresh
    have hkeep₁ := hkeep _ hnode
    have hkeep₂ := hkeep _ hne
    rw [← hw'] at hkeep₁ hkeep₂ hfresh ⊢
    refine ⟨⟨⟨hkeep₁.trans hcut.writes, ⟨hkeep₂.trans hcut.fresh.1, hcut.fresh.2⟩, hcut.whole⟩,
      hrep, hleft, hright, hroot⟩, hfresh, hne, kl, ?_, hmem, hmin⟩
    rw [← hrep]
    rfl

theorem writeRoot_sound (hcap : 2 ≤ cap) {left right : Node K V} {boundary_key : K}
    {new_inner_node : InnerNode K} (h : Inv cap m₀ s E G m order)
    (ht : s.threads t = .inserting id key value
      (.writeRoot node left right boundary_key new_inner_node))
    (hstep : insertStep cap s t id key value
      (.writeRoot node left right boundary_key new_inner_node) = some s') :
    s'.SoundFrom cap m₀ G := by
  have hk := h.know t
  rw [ht] at hk
  obtain ⟨⟨hcut, hrep, hleft, hright, hroot⟩, ⟨hfresh, hne, hslots⟩⟩ :
    Growing (s.world E G) t node left right boundary_key
      ∧ Rooting (s.world E G) t node left right boundary_key new_inner_node := hk
  have hnode : node ≠ new_inner_node.selfRep := by
    rintro he
    have hplan := h.ok.plan_root
    rw [← hroot, he] at hplan
    cases hfresh.2.symm.trans hplan
  have hsize : new_inner_node.slots.length ≤ cap := by
    obtain ⟨kl, heq, -⟩ := hslots
    rw [heq]
    exact hcap
  cases hstep
  refine Inv.same (h.writeBlock rfl hsize (.refl _) h.ok hfresh.1 (by rw [ht]; rfl)
    (by rw [ht]; exact fun x hx => hx) ?_ (h.ledger_same (by rw [ht]; rfl)))
  exact ⟨⟨⟨hcut.writes, hcut.fresh, hcut.whole⟩, hrep,
    (Function.update_of_ne hnode ..).trans hleft, (Function.update_of_ne hne ..).trans hright,
    hroot⟩, ⟨hfresh, hne, hslots⟩, Function.update_self ..⟩

/-- The new root is published, and is the root of the tree from then on. -/
theorem updateRoot_sound {left right : Node K V} {boundary_key : K} {new_inner_node : InnerNode K}
    (h : Inv cap m₀ s E G m order)
    (ht : s.threads t = .inserting id key value
      (.updateRoot node left right boundary_key new_inner_node))
    (hstep : insertStep cap s t id key value
      (.updateRoot node left right boundary_key new_inner_node) = some s') :
    s'.SoundFrom cap m₀ G := by
  have hk := h.know t
  rw [ht] at hk
  obtain ⟨⟨hcut, hrep, hleft, hright, hroot⟩, ⟨hfresh, hne, kl, hslots, hmem, hmin⟩, hraw⟩ :
    Growing (s.world E G) t node left right boundary_key
      ∧ Rooting (s.world E G) t node left right boundary_key new_inner_node
      ∧ (s.world E G).raw new_inner_node.selfRep = some (.inner new_inner_node.slots) := hk
  obtain rfl : node = s.root := hroot
  generalize hth : Thread.inserting id key value
    (.unlock s.root [] (some ⟨right.selfRep, boundary_key⟩)) = th
  have hnil : th.fresh = [] := by rw [← hth]; rfl
  generalize hs₁ : s.updateRoot t new_inner_node.selfRep th = s₁
  obtain rfl : s₁ = s' := by
    rw [← hs₁, ← hth]
    exact Option.some.inj hstep
  have hthreads : s₁.threads = Function.update s.threads t th := by rw [← hs₁]; rfl
  have hlocks : s₁.locks = s.locks := by rw [← hs₁]; rfl
  have hself : s₁.threads t = th := by rw [hthreads, Function.update_self]
  obtain ⟨hkeep, hdrop⟩ := h.mode_drop s₁ hthreads hlocks hnil
  have hpair : (s.threads t).fresh = [right.selfRep, new_inner_node.selfRep] := by rw [ht]; rfl
  rw [hpair] at hkeep hdrop
  -- the block of the new root is written already
  have hworld : (((s.world E G).growAt right.selfRep new_inner_node.selfRep left.shape right.shape kl
      boundary_key).writeRaw new_inner_node.selfRep
        (.inner [(kl, s.root), (boundary_key, right.selfRep)])).withMode s₁.mode
      = s₁.world ((s.world E G).growAt right.selfRep new_inner_node.selfRep left.shape right.shape kl
          boundary_key).E ((s.world E G).growAt right.selfRep new_inner_node.selfRep left.shape
          right.shape kl boundary_key).G := by
    have hsame : Function.update s.raw new_inner_node.selfRep
        (some (.inner [(kl, s.root), (boundary_key, right.selfRep)])) = s.raw := by
      rw [← hslots, ← hraw]
      exact Function.update_eq_self ..
    rw [← hs₁]
    exact congrArg (fun raw => World.mk raw _ _ _ _ _) hsame
  obtain ⟨hok, hguars, hclean, -, hplan⟩ := h.ok.writeRoot hcut hfresh hne hmem hmin hleft hright
    (μ := s₁.mode)
    (fun j x hx => hkeep j x (hx.imp_right fun hx => by simp [hx.1, hx.2]))
    (hdrop _ (by simp)) (hdrop _ (by simp)) hworld
  have hledger : Ledger mapSpec m₀ s₁.nextId s₁.history
      (Function.update (fun u => (s.threads u).status) t (s₁.threads t).status) order m := by
    have hst : th.status = (s.threads t).status := by rw [ht, ← hth]; rfl
    rw [hself, ← hs₁]
    exact h.ledger_same hst
  refine ⟨_, _, m, order, h.next t hguars hok ?_ ?_ (fun x hx => ?_) (fun u hu => ?_)
    (fun u x _ => ?_) (fun x hx => ?_) ?_ hledger, keepsLevels hguars⟩
  · rw [← hs₁]; exact h.blocks
  · rw [← hs₁]; exact h.allocator
  · have hfree : s.allocator.Free x := by rw [← hs₁] at hx; exact hx
    obtain ⟨hG, hnot⟩ := h.unused x hfree
    have hnotx := hnot t
    rw [hpair] at hnotx
    refine ⟨hplan x (fun he => hnotx (by simp [he])) (fun he => hnotx (by simp [he])) hG, ?_⟩
    rw [← hs₁]
    exact not_fresh_goto (fun hx => by rw [hnil] at hx; cases hx) hnot
  · rw [hthreads, Function.update_of_ne hu]
  · rw [hlocks]
  · rw [hlocks] at hx
    obtain ⟨hmem', hknown⟩ := h.locked t x hx
    rw [ht] at hmem'
    rw [hself, ← hth]
    exact ⟨hmem', hguars.induct (P := fun w => w.Knows x) (fun _ _ hg hk => hk.stable hg) hknown⟩
  · rw [hself, ← hth]
    exact ⟨hclean, .inl rfl, trivial⟩

/-! ## §5. Back to the root. -/

theorem writeBack_sound {f : Frame K} (h : Inv cap m₀ s E G m order)
    (ht : s.threads t = .inserting id key value (.writeBack f parents))
    (hstep : insertStep cap s t id key value (.writeBack f parents) = some s') :
    s'.SoundFrom cap m₀ G := by
  have hk := h.know t
  rw [ht] at hk
  obtain ⟨hwrites, -, hE, hself, hsize, hpath, hframes⟩ := hk
  cases hstep
  refine Inv.same (h.writeBlock hself hsize (.refl _) h.ok hwrites (by rw [ht]; rfl)
    (by rw [ht]; exact fun x hx => hx) ?_ (h.ledger_same (by rw [ht]; rfl)))
  exact ⟨⟨hwrites.held, (Function.update_self ..).trans hE.symm⟩,
    hpath.imp_right fun hpath => hpath.writeRaw h.ok, hframes⟩

/-- A full inner node is split to make room for the slot of its child's upper half. -/
theorem inner_sound (hcap : 2 ≤ cap) {f : Frame K} {child_split : Split K}
    (h : Inv cap m₀ s E G m order)
    (ht : s.threads t = .inserting id key value (.inner f parents child_split))
    (hstep : insertStep cap s t id key value (.inner f parents child_split) = some s') :
    s'.SoundFrom cap m₀ G := by
  have hk := h.know t
  rw [ht] at hk
  obtain ⟨⟨a, ⟨sp, hG⟩, hwrites, ⟨xs, ka, ys, hslots, hindex, -, hE⟩, -, -⟩, hfull, hpath, hroot,
    hself, hframes⟩ := hk
  change f.inner_node.slots = xs ++ (ka, a) :: ys at hslots
  change f.target_node_index = xs.length at hindex
  obtain ⟨hsorted, -⟩ := h.ok.sorted_inner hG hE
  obtain ⟨L, b, child, R, heq, hhalf, hlL, hlR⟩ := InnerNode.splitInsert_halves (V := V) hsorted
    hslots hfull hcap s.allocator.next
  simp only [insertStep, hindex, heq, Option.some.injEq] at hstep
  rw [← hstep]
  have hne : f.current_node_id ≠ s.allocator.next := by
    intro he
    change G f.current_node_id = some sp at hG
    rw [he] at hG
    cases h.next_unused.1.symm.trans hG
  refine Inv.same (h.alloc (by rw [ht]; simp [Thread.fresh, InsertPc.fresh, Node.selfRep])
    (by rw [ht]; exact fun x hx => hx) (by rw [ht]; rfl) ?_)
  intro w' hw' hok hkeep hfresh
  refine ⟨⟨h.path_alloc hw' hkeep hpath, hroot, hframes, hself, hlL, hlR, hfresh⟩,
    (hkeep _ hne).trans hwrites, hfresh, _, ?_, hhalf⟩
  rw [← hw']
  exact hE

omit [DecidableEq T] in
/-- Where the calls that wait go on: the node of the first is written if its copy was
modified, gets the slot of the upper half if it has room, and is split otherwise. -/
theorem resume_ok {w : World T K V BlkAddress} {split : Option (Split K)}
    (hpath : parents = [] ∨ w.Path t key cap (split.map fun s => (s.boundary_key, s.right))
      (parents.map Frame.copy) node) (hframes : FramesOk parents) :
    InsertOk cap w t key value (.resume cap parents split) := by
  cases parents with
  | nil => trivial
  | cons f parents =>
      obtain ⟨hf, hrest⟩ := hpath.resolve_left nofun
      have habove : parents = [] ∨ w.Path t key cap none (parents.map Frame.copy)
          f.current_node_id :=
        hrest.symm.imp (fun h => List.map_eq_nil_iff.1 h.1) (fun h => h)
      cases split with
      | none =>
          rw [InsertPc.resume]
          by_cases hmod : f.inner_node.modified = true
          · rw [if_pos hmod]
            exact ⟨hf.writes, hf.plan, hf.row_eq, hframes.2.1, hf.size, habove, hframes.2.2⟩
          · rw [if_neg hmod]
            exact ⟨hf.clean (Bool.eq_false_of_not_eq_true hmod), habove, hframes.2.2⟩
      | some child_split =>
          rw [InsertPc.resume]
          by_cases hroom : f.inner_node.size < cap
          · rw [if_pos hroom]
            obtain ⟨xs, ka, ys, hslots, hindex, -, hE⟩ := hf.row
            have hins := InnerNode.insertInnerNode_slots hslots child_split.right
              child_split.boundary_key
            rw [← hindex] at hins
            refine ⟨hf.writes, hf.plan, ?_, hframes.2.1, ?_, habove, hframes.2.2⟩
            · exact hE.trans (congrArg (fun sl => some (Shape.inner sl)) hins.symm)
            · have hlen : f.inner_node.slots.length < cap := hroom
              rw [show f.inner_node.slots = _ from hslots] at hlen
              refine (congrArg List.length hins).trans_le ?_
              simp only [List.length_append, List.length_cons] at hlen ⊢
              omega
          · rw [if_neg hroom]
            refine ⟨⟨node, hf⟩, le_antisymm hf.size (not_lt.1 hroom), ?_, hframes⟩
            exact hrest.resolve_right fun h => hroom h.2

omit [DecidableEq T] [LinearOrder K] in
/-- … with the locks of the calls that wait, and nothing new. -/
theorem resume_holds (capacity : Nat) (parents : List (Frame K)) (split : Option (Split K)) :
    (InsertPc.resume capacity parents split : InsertPc K V).fresh = []
      ∧ (InsertPc.resume capacity parents split : InsertPc K V).nodes
        = parents.map Frame.current_node_id
      ∧ (InsertPc.resume capacity parents split : InsertPc K V).done = true := by
  cases parents with
  | nil => exact ⟨rfl, rfl, rfl⟩
  | cons f parents =>
      cases split with
      | none =>
          rw [InsertPc.resume]
          split <;> exact ⟨rfl, rfl, rfl⟩
      | some child_split =>
          rw [InsertPc.resume]
          split <;> exact ⟨rfl, rfl, rfl⟩

theorem unlock_sound {split : Option (Split K)} (h : Inv cap m₀ s E G m order)
    (ht : s.threads t = .inserting id key value (.unlock node parents split))
    (hstep : insertStep cap s t id key value (.unlock node parents split) = some s') :
    s'.SoundFrom cap m₀ G := by
  have hk := h.know t
  rw [ht] at hk
  obtain ⟨hclean, hpath, hframes⟩ := hk
  obtain ⟨hfresh, hnodes, hdone⟩ := resume_holds (V := V) cap parents split
  cases hstep
  refine Inv.same (h.release hclean (by rw [ht]; exact hfresh) ?_ ?_ ?_)
  · rw [ht]
    intro x hx hne
    show x ∈ InsertPc.nodes _
    rw [hnodes]
    exact (List.mem_cons.1 hx).resolve_left hne
  · rw [ht, Thread.status, hdone]
    rfl
  · intro w' hw' hok hkeep
    by_cases hnil : parents = []
    · subst hnil
      trivial
    · have hpath := hpath.resolve_left hnil
      rw [← hw']
      exact resume_ok (.inr (hpath.withMode (fun f hf => hkeep _ (hpath.ne h.ok hf))
        (fun hmap => absurd (List.map_eq_nil_iff.1 hmap) hnil))) hframes

end ConcurrentBPlusTree

end NvmTree
