/-
  NvmTree.Concurrent.Progress — the threads never wait for each other in a circle.

  A thread that waits for the lock of a node holds locks only of nodes above it, if it
  holds any.  Whoever has the lock it waits for either goes on, or waits in turn, for a
  node further down the tree.  At the end of this chain is a thread that goes on.

  A thread that does not wait for a lock can always go on: the block it reads is there,
  with the slot its key goes down to, and a node that is split leaves no half empty.

  Main result: `run_no_deadlock`.
-/
import NvmTree.Concurrent.Linearizable
import NvmTree.Node.Halves

namespace NvmTree

open RangeTree

namespace ConcurrentBPlusTree

/-! ## §1. The order of the locks. -/

section Awaits

variable {K V : Type*}

/-- The node whose lock is the next access. -/
def SearchPc.awaits : SearchPc V → Option BlkAddress
  | .lock node _ _ => some node
  | _ => none

def InsertPc.awaits : InsertPc K V → Option BlkAddress
  | .optLock node _ _ _ => some node
  | .lock node _ _ => some node
  | _ => none

def Thread.awaits : Thread K V → Option BlkAddress
  | .idle => none
  | .searching _ _ pc => pc.awaits
  | .inserting _ _ _ pc => pc.awaits

end Awaits

variable {T K V : Type*} [DecidableEq T] [LinearOrder K] {cap : Nat} {m₀ m : K → Option V}
  {s s' : State T K V} {E : Store K V BlkAddress} {G : Plan K BlkAddress}
  {order : List (Nat × Op K V × Answer V)} {t : T} {id : Nat} {key : K} {value : V}
  {x node : BlkAddress}

omit [LinearOrder K] in
/-- What a thread without new blocks holds, it has locked. -/
theorem lockOf_of_held (hfresh : (s.threads t).fresh = []) (hheld : (s.world E G).Held t x) :
    s.locks.lockOf t x ≠ none := by
  have hmode : s.mode t x ≠ none := hheld
  unfold State.mode at hmode
  rwa [hfresh, if_neg List.not_mem_nil] at hmode

/-- What `t` has locked is above `node`. -/
def LocksAbove (s : State T K V) (E : Store K V BlkAddress) (G : Plan K BlkAddress) (t : T)
    (node : BlkAddress) : Prop :=
  ∃ l, (s.world E G).LevelIs node l
    ∧ ∀ y, s.locks.lockOf t y ≠ none → ∃ l', (s.world E G).LevelIs y l' ∧ l < l'

/-- The root is the first lock. -/
theorem Inv.above_first (h : Inv cap m₀ s E G m order) (hk : (s.world E G).Knows node)
    (hnodes : (s.threads t).nodes = []) : LocksAbove s E G t node := by
  obtain ⟨sp, hG⟩ := hk
  refine ⟨sp.level, ⟨sp, hG, rfl⟩, fun y hy => ?_⟩
  have hmem := (h.locked t y hy).1
  rw [hnodes] at hmem
  cases hmem

/-- A thread that couples locks and waits for a child holds the lock of its parent. -/
theorem Inv.above_coupling (h : Inv cap m₀ s E G m order) {parent : Option BlkAddress}
    (hat : (s.world E G).At t node key) (hfresh : (s.threads t).fresh = [])
    (hnodes : (s.threads t).nodes = parent.toList) (hne : ∀ p ∈ parent, node ≠ p) :
    LocksAbove s E G t node := by
  have hmem : ∀ y, s.locks.lockOf t y ≠ none → y ∈ parent := by
    intro y hy
    have hy := (h.locked t y hy).1
    rw [hnodes] at hy
    exact Option.mem_toList.1 hy
  obtain ⟨sa, ha, -⟩ := hat.plan
  refine ⟨sa.level, ⟨sa, ha, rfl⟩, fun y hy => ?_⟩
  rcases hat.near with hheld | ⟨p, ⟨sp, slots, k, hG, hE, hm⟩, hheld⟩
  · exact absurd rfl (hne node (hmem node (lockOf_of_held hfresh hheld)))
  · have hpy : some p = some y := (hmem p (lockOf_of_held hfresh hheld)).symm.trans (hmem y hy)
    obtain ⟨sc, hc, hlevel⟩ := h.ok.level_child hG hE hm
    rw [ha] at hc
    cases hc
    exact ⟨sp.level, Option.some.inj hpy ▸ ⟨sp, hG, rfl⟩, Nat.lt_of_succ_le hlevel.le⟩

/-- **Locks are taken from the root downwards**: what a thread has locked is above what it
waits for. -/
theorem Inv.awaits_below (h : Inv cap m₀ s E G m order)
    (hnode : (s.threads t).awaits = some node) : LocksAbove s E G t node := by
  have hk := h.know t
  cases ht : s.threads t with
  | idle =>
      rw [ht] at hnode
      cases hnode
  | searching id key pc =>
      rw [ht] at hnode hk
      cases pc with
      | lock a is_root parent =>
          cases hnode
          cases is_root with
          | true =>
              obtain ⟨hknown, rfl⟩ := hk
              exact h.above_first hknown (by rw [ht]; rfl)
          | false =>
              obtain ⟨hat, hparent⟩ := hk
              exact h.above_coupling hat (by rw [ht]; rfl) (by rw [ht]; rfl)
                (fun p hp => (hparent p hp).2.2)
      | _ => cases hnode
  | inserting id key value pc =>
      rw [ht] at hnode hk
      cases pc with
      | optLock a depth is_root parent =>
          cases hnode
          cases is_root with
          | true =>
              obtain ⟨hknown, rfl, -⟩ := hk
              exact h.above_first hknown (by rw [ht]; rfl)
          | false =>
              obtain ⟨hat, -, hparent⟩ := hk
              exact h.above_coupling hat (by rw [ht]; rfl) (by rw [ht]; rfl)
                (fun p hp => (hparent p hp).2.2)
      | lock a is_root parents =>
          cases hnode
          cases is_root with
          | true =>
              obtain ⟨hknown, rfl⟩ := hk
              exact h.above_first hknown (by rw [ht]; rfl)
          | false =>
              -- all nodes of the path are locked
              obtain ⟨hat, -, hpath, -⟩ := hk
              obtain ⟨sp, hG, -⟩ := hat.plan
              refine ⟨sp.level, ⟨sp, hG, rfl⟩, fun y hy => ?_⟩
              have hmem := (h.locked t y hy).1
              rw [ht] at hmem
              obtain ⟨f, hf, rfl⟩ := List.mem_map.1 hmem
              obtain ⟨sf, hsf, hlt⟩ := hpath.level_lt h.ok hG f.copy (List.mem_map_of_mem hf)
              exact ⟨sf.level, ⟨sf, hsf, rfl⟩, hlt⟩
      | _ => cases hnode

/-! ## §2. Who can go on. -/

omit [LinearOrder K] in
/-- A lock that is refused is held by somebody. -/
theorem exists_holder {type : LockType} {th : Thread K V}
    (hnone : s.acquire t node type th = none) : ∃ u, s.locks.lockOf u node ≠ none := by
  unfold State.acquire at hnone
  split at hnone
  · cases hnone
  · next hrefused =>
      cases hlocks : s.locks node with
      | nil =>
          unfold LockManager.admits at hrefused
          rw [hlocks] at hrefused
          cases type <;> exact absurd rfl hrefused
      | cons holder rest =>
          refine ⟨holder.1, ?_⟩
          unfold LockManager.lockOf
          rw [hlocks, List.lookup_cons_self]
          exact Option.some_ne_none _

/-- A node that shows the tree is a leaf, or has the slot a key goes down to. -/
theorem Inv.reads (h : Inv cap m₀ s E G m order) (hk : (s.world E G).Knows node)
    (hclean : (s.world E G).Clean t node) (key : K) :
    (∃ leaf, (s.blocks node).map Block.deserialize = some (.leaf leaf))
      ∨ ∃ n : InnerNode K, (s.blocks node).map Block.deserialize = some (.inner n)
        ∧ ∃ k child, n.slots[(n.locateChildIndex key).toNat]? = some (k, child)
          ∧ (s.world E G).Parent node child := by
  obtain ⟨b, hb, -, -, hE⟩ := h.shows hk hclean
  obtain ⟨sp, hG⟩ := hk
  cases b with
  | leaf rep sib es => exact .inl ⟨_, by rw [hb]; rfl⟩
  | inner rep slots =>
      obtain ⟨hsorted, hne, -⟩ := h.ok.sorted_inner hG hE
      have hlt := InnerNode.locateChildIndex_lt_length (n := ⟨rep, slots, false⟩) hsorted hne key
      exact .inr ⟨⟨rep, slots, false⟩, by rw [hb]; rfl, _, _, List.getElem?_eq_getElem hlt,
        sp, slots, _, hG, hE, List.getElem_mem hlt⟩

/-- What a search reads takes it to a child, or is the end of it. -/
theorem Inv.search_read (h : Inv cap m₀ s E G m order) (hk : (s.world E G).Knows node)
    (hclean : (s.world E G).Clean t node) (id : Nat) (key : K) :
    ∃ pc, searchStep s t id key (.read node) = some (s.goto t (.searching id key pc))
      ∧ ((∃ found, pc = .unlock node found)
        ∨ ∃ child, pc = .lock child false (some node) ∧ (s.world E G).Parent node child) := by
  rw [searchStep]
  rcases h.reads hk hclean key with ⟨leaf, hb⟩ | ⟨n, hb, k, child, hslot, hparent⟩
  · rw [hb]
    exact ⟨_, rfl, .inl ⟨_, rfl⟩⟩
  · rw [hb]
    dsimp only
    split
    · exact ⟨_, rfl, .inl ⟨_, rfl⟩⟩
    · rw [hslot]
      exact ⟨_, rfl, .inr ⟨child, rfl, hparent⟩⟩

/-- The same for the optimistic insertion … -/
theorem Inv.optimistic_read (h : Inv cap m₀ s E G m order) (hk : (s.world E G).Knows node)
    (hclean : (s.world E G).Clean t node) (id : Nat) (key : K) (value : V) (depth : Int) :
    ∃ pc, insertStep cap s t id key value (.optRead node depth)
        = some (s.goto t (.inserting id key value pc))
      ∧ (pc = .optUnlock node false ∨ (∃ leaf, pc = .optWrite node leaf)
        ∨ ∃ child, pc = .optLock child (depth - 1) false (some node)
          ∧ (s.world E G).Parent node child) := by
  rw [insertStep, optStep]
  rcases h.reads hk hclean key with ⟨leaf, hb⟩ | ⟨n, hb, k, child, hslot, hparent⟩
  · rw [hb]
    dsimp only
    split
    · exact ⟨_, rfl, .inl rfl⟩
    · exact ⟨_, rfl, .inr (.inl ⟨_, rfl⟩)⟩
  · rw [hb]
    dsimp only
    split
    · exact ⟨_, rfl, .inl rfl⟩
    · rw [hslot]
      exact ⟨_, rfl, .inr (.inr ⟨child, rfl, hparent⟩)⟩

/-- … and the pessimistic one, which may lower the first key of the node. -/
theorem Inv.pessimistic_read (h : Inv cap m₀ s E G m order) (hk : (s.world E G).Knows node)
    (hclean : (s.world E G).Clean t node) (id : Nat) (key : K) (value : V) (is_root : Bool)
    (parents : List (Frame K)) :
    ∃ pc, insertStep cap s t id key value (.read node is_root parents)
        = some (s.goto t (.inserting id key value pc))
      ∧ ((∃ leaf, pc = .leaf node is_root parents leaf)
        ∨ ∃ child f, pc = .lock child false (f :: parents) ∧ (s.world E G).Parent node child) := by
  rw [insertStep, readStep]
  rcases h.reads hk hclean key with ⟨leaf, hb⟩ | ⟨n, hb, k, child, hslot, hparent⟩
  · rw [hb]
    exact ⟨_, rfl, .inl ⟨_, rfl⟩⟩
  · rw [hb]
    dsimp only
    obtain ⟨k', hslot'⟩ : ∃ k', (if n.locateChildIndex key < 0 then n.setFirstKey key
        else n).slots[(n.locateChildIndex key).toNat]? = some (k', child) := by
      split
      · next hneg =>
          rw [Int.toNat_of_nonpos hneg.le] at hslot ⊢
          unfold InnerNode.setFirstKey
          rw [List.getElem?_modify_eq, hslot]
          exact ⟨_, rfl⟩
      · exact ⟨k, hslot⟩
    rw [hslot']
    exact ⟨_, rfl, .inr ⟨child, _, rfl, hparent⟩⟩

/-- A search that does not wait for a lock goes on. -/
theorem Inv.searchStep_some {pc : SearchPc V} (h : Inv cap m₀ s E G m order)
    (ht : s.threads t = .searching id key pc) (hno : pc.awaits = none) :
    ∃ s', searchStep s t id key pc = some s' := by
  have hk : SearchOk (s.world E G) t key pc := by
    have := h.know t
    rw [ht] at this
    exact this
  cases pc with
  | lock node is_root parent => cases hno
  | read node =>
      obtain ⟨pc, hs, -⟩ := h.search_read hk.1.toNear.plan hk.2 id key
      exact ⟨_, hs⟩
  | _ => exact ⟨_, rfl⟩

/-- So does an insertion, which reads the root id when it has read the height first. -/
theorem Inv.insertStep_some (hcap : 2 ≤ cap) {pc : InsertPc K V} (h : Inv cap m₀ s E G m order)
    (ht : s.threads t = .inserting id key value pc) (hno : pc.awaits = none)
    (hroot : ∀ height, pc ≠ .optRoot height) :
    ∃ s', insertStep cap s t id key value pc = some s' := by
  have hk : InsertOk cap (s.world E G) t key value pc := by
    have := h.know t
    rw [ht] at this
    exact this
  cases pc with
  | optRoot height => exact absurd rfl (hroot height)
  | optLock node depth is_root parent => cases hno
  | lock node is_root parents => cases hno
  | optRead node depth =>
      obtain ⟨pc, hs, -⟩ := h.optimistic_read hk.1.toNear.plan hk.2.1 id key value depth
      exact ⟨_, hs⟩
  | read node is_root parents =>
      have hdown : Descending cap (s.world E G) t key node is_root parents := hk
      obtain ⟨pc, hs, -⟩ :=
        h.pessimistic_read hdown.at_node.toNear.plan hdown.clean id key value is_root parents
      exact ⟨_, hs⟩
  | leaf node is_root parents leaf =>
      rw [insertStep]
      split
      · exact ⟨_, rfl⟩
      · exact ⟨_, rfl⟩
  | newRoot node left right b =>
      -- neither half is empty
      have hgrow : Growing (s.world E G) t node left right b := hk
      obtain ⟨sh, -, hhalves⟩ := hgrow.cut.whole
      obtain ⟨-, hleft, hright⟩ := hhalves.keys
      obtain ⟨kl, kls, hkl⟩ := List.exists_cons_of_ne_nil hleft
      obtain ⟨kr, krs, hkr⟩ := List.exists_cons_of_ne_nil (List.ne_nil_of_mem hright)
      rw [insertStep, Node.getLeftmostKey_eq, Node.getLeftmostKey_eq, hkl, hkr]
      exact ⟨_, rfl⟩
  | inner f parents split =>
      have hnil := (InnerNode.splitInsert_ne_nil hcap hk.2.1 f.target_node_index split.right
        split.boundary_key s.allocator.next).2
      obtain ⟨⟨b, c⟩, rest, hslots⟩ := List.exists_cons_of_ne_nil hnil
      rw [insertStep, hslots]
      exact ⟨_, rfl⟩
  | _ => exact ⟨_, rfl⟩

/-- No new call. -/
def Action.Serves : Action T K V → Prop
  | .invoke _ _ => False
  | _ => True

/-- The action is a step of `t`. -/
def Action.By (t : T) : Action T K V → Prop
  | .invoke _ _ => False
  | .run u => u = t
  | .heightFirst u => u = t
  | .rootAfter u => u = t

omit [DecidableEq T] [LinearOrder K] in
theorem Action.Serves.exists_by {a : Action T K V} (ha : a.Serves) : ∃ t, a.By t := by
  cases a with
  | invoke t op => exact ha.elim
  | _ => exact ⟨_, rfl⟩

/-- Only a thread in a call takes steps. -/
theorem Action.By.busy {a : Action T K V} (ha : a.By t) (hs : step cap s a = some s') :
    s.threads t ≠ .idle := by
  intro hidle
  cases a with
  | invoke u op => exact ha
  | _ =>
      cases ha
      rw [step, hidle] at hs
      cases hs

/-- **Who does not wait for a lock goes on.** -/
theorem Inv.step_some (hcap : 2 ≤ cap) (h : Inv cap m₀ s E G m order)
    (ht : s.threads t ≠ .idle) (hno : (s.threads t).awaits = none) :
    ∃ a s', Action.Serves a ∧ step cap s a = some s' := by
  cases hth : s.threads t with
  | idle => exact absurd hth ht
  | searching id key pc =>
      rw [hth] at hno
      obtain ⟨s', hs⟩ := h.searchStep_some hth hno
      exact ⟨.run t, s', trivial, by rw [step, hth]; exact hs⟩
  | inserting id key value pc =>
      rw [hth] at hno
      by_cases hroot : ∃ height, pc = .optRoot height
      · obtain ⟨height, rfl⟩ := hroot
        exact ⟨.rootAfter t, _, trivial, by rw [step, hth]⟩
      · obtain ⟨s', hs⟩ := h.insertStep_some hcap hth hno fun height he => hroot ⟨height, he⟩
        exact ⟨.run t, s', trivial, by rw [step, hth]; exact hs⟩

/-- Who waits for a lock gets it, or somebody has it. -/
theorem granted_or_held (hnode : (s.threads t).awaits = some node) :
    (∃ s', step cap s (.run t) = some s') ∨ ∃ u, s.locks.lockOf u node ≠ none := by
  have hacquire : ∃ type th, step cap s (.run t) = s.acquire t node type th := by
    cases hth : s.threads t with
    | idle =>
        rw [hth] at hnode
        cases hnode
    | searching id key pc =>
        rw [hth] at hnode
        cases pc with
        | lock a is_root parent =>
            cases hnode
            exact ⟨_, _, by rw [step, hth]; rfl⟩
        | _ => cases hnode
    | inserting id key value pc =>
        rw [hth] at hnode
        cases pc with
        | optLock a depth is_root parent =>
            cases hnode
            exact ⟨_, _, by rw [step, hth]; rfl⟩
        | lock a is_root parents =>
            cases hnode
            exact ⟨_, _, by rw [step, hth]; rfl⟩
        | _ => cases hnode
  obtain ⟨type, th, heq⟩ := hacquire
  cases hs : s.acquire t node type th with
  | some s' => exact .inl ⟨s', heq.trans hs⟩
  | none => exact .inr (exists_holder hs)

/-! ## §3. No deadlock. -/

/-- **Along the locks one gets to a thread that goes on**, lower and lower in the tree. -/
theorem Inv.exists_step_of_awaits (hcap : 2 ≤ cap) (h : Inv cap m₀ s E G m order) :
    ∀ (l : Nat) {t : T} {node : BlkAddress}, (s.threads t).awaits = some node →
      (s.world E G).LevelIs node l → ∃ a s', Action.Serves a ∧ step cap s a = some s' := by
  intro l
  induction l using Nat.strong_induction_on with
  | _ l ih =>
      intro t node hnode hlevel
      rcases granted_or_held hnode with ⟨s', hs⟩ | ⟨u, hu⟩
      · exact ⟨.run t, s', trivial, hs⟩
      · cases hawaits : (s.threads u).awaits with
        | none =>
            refine h.step_some hcap (t := u) (fun hidle => ?_) hawaits
            have hmem := (h.locked u node hu).1
            rw [hidle] at hmem
            cases hmem
        | some y =>
            -- the holder waits as well, for a node below `node`
            obtain ⟨l', hl', habove⟩ := h.awaits_below hawaits
            obtain ⟨ln, hln, hlt⟩ := habove node hu
            refine ih l' ?_ hawaits hl'
            rwa [hlevel.unique hln]

theorem State.Sound.exists_step (hcap : 2 ≤ cap) (h : s.Sound cap m₀)
    (ht : s.threads t ≠ .idle) : ∃ a s', Action.Serves a ∧ step cap s a = some s' := by
  obtain ⟨E, G, m, order, h⟩ := h
  cases hawaits : (s.threads t).awaits with
  | none => exact h.step_some hcap ht hawaits
  | some node =>
      obtain ⟨l, hl, -⟩ := h.awaits_below hawaits
      exact h.exists_step_of_awaits hcap l hawaits hl

/-- **The lock-based tree never deadlocks.**  In every state of every run in which some
thread is in a call, some thread can take a step of its call. -/
theorem run_no_deadlock (hcap : 2 ≤ cap) {blocks : BlkAddress → Option (Block K V)}
    {allocator : Allocator} {root : BlkAddress} {depth : Nat}
    (hstored : Stored cap blocks allocator root depth m₀) (as : List (Action T K V))
    (hcurrent : CurrentRun cap (start blocks allocator root depth) as) (s : State T K V)
    (hrun : run cap (start blocks allocator root depth) as = some s) (t : T)
    (ht : s.threads t ≠ .idle) : ∃ a s', Action.Serves a ∧ step cap s a = some s' :=
  (run_sound hcap (start_sound hstored) hcurrent hrun).exists_step hcap ht

/-- A search waits for the root, which an insertion has locked to split it. -/
def waitsForSplit : List (Action Bool Nat Nat) :=
  [.invoke false (.insert 10 1)] ++ steps 9 false ++ [.invoke false (.insert 20 2)]
    ++ steps 9 false ++ [.invoke false (.insert 30 3)] ++ steps 12 false
    ++ [.invoke true (.search 20), .run true]

/-- The insertion goes on. -/
theorem run_no_deadlock_split :
    ∃ s, run 2 init waitsForSplit = some s ∧ (s.threads true).awaits = some 0
      ∧ (step 2 s (.run true)).isNone ∧ ∃ a s', Action.Serves a ∧ step 2 s a = some s' := by
  have hrun : (run 2 init waitsForSplit).map (fun s => ((s.threads true).awaits,
      (step 2 s (.run true)).isNone)) = some (some 0, true) := by decide +kernel
  obtain ⟨s, hs, heq⟩ := Option.map_eq_some_iff.1 hrun
  simp only [Prod.mk.injEq] at heq
  obtain ⟨hawaits, hnone⟩ := heq
  have hcurrent : CurrentRun 2 init waitsForSplit :=
    currentRun_of_rootFirst (by simp [waitsForSplit, steps, Action.RootFirst])
  have hbusy : s.threads true ≠ .idle := by
    intro hidle
    rw [hidle] at hawaits
    cases hawaits
  exact ⟨s, hs, hawaits, hnone,
    run_no_deadlock le_rfl (Stored.single 2 0) waitsForSplit hcurrent s hs true hbusy⟩

end ConcurrentBPlusTree

end NvmTree
