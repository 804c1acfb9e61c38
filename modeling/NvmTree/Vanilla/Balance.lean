/-
  NvmTree.Vanilla.Balance — which nodes `delete_key` balances.

  `InnerNode::delete_key` balances two children when the one it went down to
  reports an underflow.  A node with a single child passes the flag of that child
  on as its own; with `UNDERFLOW_BOUND` at least 2 the flag is true of it all the
  same, but at `CAPACITY` 2 the bound is 1 and it is not.

  Main results:
    * `Node.balancing` — what is known of the two children when they are balanced.
    * `run_balanced` — at `CAPACITY` 3 and above one of the two always under-flows,
      and both are within `CAPACITY` afterwards.
    * `run_overfills` — at `CAPACITY` 2 two nodes are merged into one of 3 children.
-/
import NvmTree.Vanilla.Map

namespace NvmTree

open RangeTree

variable {K V : Type*} [LinearOrder K]

/-! ## §1. The pairs. -/

namespace Node

/-- The two nodes at the slots `left_child_index` and next to it. -/
def pairAt (h : Heap K V) (n : InnerNode K) (left_child_index : Nat) :
    Option (Node K V × Node K V) :=
  match n.slots[left_child_index]?, n.slots[left_child_index + 1]? with
  | some (_, lc), some (_, rc) =>
      match h.cells lc, h.cells rc with
      | some nl, some nr => some (nl, nr)
      | _, _ => none
  | _, _ => none

/-- The slot index of the left one of the two children to balance. -/
def leftChildIndex (child_index : Int) : Nat :=
  if 1 ≤ child_index then (child_index - 1).toNat else child_index.toNat

/-- The pairs of nodes that `delete_key` balances on the way up. -/
def balancedPairs (capacity : Nat) :
    Nat → Heap K V → BlkAddress → K → Bool → List (Node K V × Node K V)
  | 0, _, _, _, _ => []
  | fuel + 1, h, a, k, underflow =>
      match h.cells a with
      | some (.inner n) =>
          let child_index := n.locateChildIndex k
          if child_index < 0 then []
          else
            match n.slots[child_index.toNat]? with
            | none => []
            | some (_, child) =>
                balancedPairs capacity fuel h child k underflow ++
                  match deleteKey capacity fuel h child k underflow with
                  | none => []
                  | some (h, deleted, underflow) =>
                      if !deleted || (!underflow || n.size < 2) then []
                      else (pairAt h n (leftChildIndex child_index)).toList
      | _ => []

/-- `left_child->balance(right_child, boundary)`: the two nodes after it. -/
def afterBalance (capacity : Nat) : Node K V × Node K V → Node K V × Node K V
  | (.leaf l, .leaf r) => (.leaf (l.balance capacity r).1, .leaf (l.balance capacity r).2.1)
  | (.inner l, .inner r) => (.inner (l.balance capacity r).1, .inner (l.balance capacity r).2.1)
  | p => p

variable {capacity : Nat} {h h₁ : Heap K V} {G : Plan K BlkAddress} {row : List (K × BlkAddress)}
  {depth : Nat} {κ k : K} {m : K → Option V} {a c : BlkAddress} {sp sc : Span K}

omit [LinearOrder K] in
/-- `balance` puts the two nodes of `afterBalance` in place. -/
theorem balance_heap {lc rc : BlkAddress} {nl nr : Node K V} {h' : Heap K V} {boundary : Option K}
    (hl : h.cells lc = some nl) (hr : h.cells rc = some nr)
    (heq : balance capacity h lc rc = some (h', boundary)) :
    h' = (h.set lc (afterBalance capacity (nl, nr)).1).set rc
      (afterBalance capacity (nl, nr)).2 := by
  unfold balance at heq
  rw [hl, hr] at heq
  match nl, nr, heq with
  | .leaf l, .leaf r, heq => exact (congrArg Prod.fst (Option.some.inj heq)).symm
  | .inner l, .inner r, heq => exact (congrArg Prod.fst (Option.some.inj heq)).symm

/-! ## §2. Where a balancing step starts. -/

/-- The children `lc` and `rc` of `n`, side by side at `index`, one of which is the
child `c` that under-flowed. -/
structure Balancing (capacity : Nat) (h : Heap K V) (n : InnerNode K) (index : Nat)
    (c lc rc : BlkAddress) (nl nr : Node K V) : Prop where
  slots : ∃ zs kl b ws, n.slots = zs ++ (kl, lc) :: (b, rc) :: ws ∧ index = zs.length
  left : h.cells lc = some nl
  right : h.cells rc = some nr
  left_le : nl.size ≤ capacity
  right_le : nr.size ≤ capacity
  child : lc = c ∧ nl.size < underflowBound capacity ∨ rc = c ∧ nr.size < underflowBound capacity
  ne : lc ≠ rc

variable {n : InnerNode K} {index : Nat} {lc rc : BlkAddress} {nl nr : Node K V}

omit [LinearOrder K] in
theorem Balancing.under (hp : Balancing capacity h n index c lc rc nl nr) :
    nl.size < underflowBound capacity ∨ nr.size < underflowBound capacity :=
  hp.child.imp And.right And.right

omit [LinearOrder K] in
/-- The slots of the two children. -/
theorem Balancing.getElem? (hp : Balancing capacity h n index c lc rc nl nr) :
    ∃ kl b, n.slots[index]? = some (kl, lc) ∧ n.slots[index + 1]? = some (b, rc) := by
  obtain ⟨zs, kl, b, ws, hslots, rfl⟩ := hp.slots
  refine ⟨kl, b, ?_, ?_⟩
  · rw [hslots]
    exact ListSplit.getElem?_at
  · rw [hslots, show zs ++ (kl, lc) :: (b, rc) :: ws = (zs ++ [(kl, lc)]) ++ (b, rc) :: ws by simp,
      show zs.length + 1 = (zs ++ [(kl, lc)]).length by simp]
    exact ListSplit.getElem?_at

omit [LinearOrder K] in
theorem Balancing.pairAt_eq (hp : Balancing capacity h n index c lc rc nl nr) :
    pairAt h n index = some (nl, nr) := by
  obtain ⟨kl, b, hleft, hright⟩ := hp.getElem?
  simp only [pairAt, hleft, hright, hp.left, hp.right]

/-- **The children that are balanced** after a deletion in the child `c`. -/
theorem balancing (hG : G a = some sp) (hn : h.cells a = some (.inner n)) {xs ys : List (K × BlkAddress)} {ki : K}
    (hslots : n.slots = xs ++ (ki, c) :: ys) (hidx : n.locateChildIndex k = xs.length)
    (hlc : sc.level + 1 = sp.level) {u : Bool}
    (hdel : Deleted capacity h h₁ G row depth κ m c sc k u true true)
    (hwide : 2 ≤ n.slots.length) :
    ∃ lc rc nl nr, Balancing capacity h₁ n (leftChildIndex (n.locateChildIndex k)) c lc rc nl nr
      ∧ ∀ {x sx}, G x = some sx → sp.level ≤ sx.level → lc ≠ x ∧ rc ≠ x := by
  obtain ⟨G₁, hT₁, -, hG₁⟩ := hdel.tree rfl
  obtain ⟨zs, kl, lc, b, rc, ws, hpair, hchild, hleft⟩ := balanced_pair hslots hwide
  have hcell : h₁.cells a = some (.inner n) := (hdel.frame hG (by omega)).trans hn
  have hE₁ : h₁.store a = some (.inner (zs ++ (kl, lc) :: (b, rc) :: ws)) := by
    rw [Heap.store_eq hcell, Node.shape, hpair]
  obtain ⟨la, hr, hGl, hGr, -, -⟩ :=
    (hT₁.tree.innerOk ((hG₁ (by omega)).2 hG) hE₁).covers.neighbours
  have hlevel : sp.level - 1 = sc.level := by omega
  obtain ⟨nl, hnl, -⟩ := Heap.cell_of_plan hT₁.tree hGl
  obtain ⟨nr, hnr, -⟩ := Heap.cell_of_plan hT₁.tree hGr
  obtain ⟨nc, hnc, hsz⟩ := hdel.under rfl rfl
  refine ⟨lc, rc, nl, nr, ⟨⟨zs, kl, b, ws, hpair, by rw [hidx]; exact hleft⟩, hnl, hnr,
    hT₁.ok.size_le hnl, hT₁.ok.size_le hnr, ?_, ?_⟩, ?_⟩
  · rcases hchild with rfl | rfl
    · rw [hnc] at hnl
      cases hnl
      exact Or.inl ⟨rfl, hsz⟩
    · rw [hnc] at hnr
      cases hnr
      exact Or.inr ⟨rfl, hsz⟩
  · rintro rfl
    rw [hGl] at hGr
    cases hGr
    exact absurd (hT₁.tree.lo_lt_hi hGl) (lt_irrefl _)
  · -- the children are on a lower level
    intro x sx hx hl
    have hx₁ : G₁ x = some sx := (hG₁ (by omega)).2 hx
    constructor
    · rintro rfl
      rw [hx₁] at hGl
      cases hGl
      simp only at hl
      omega
    · rintro rfl
      rw [hx₁] at hGr
      cases hGr
      simp only at hl
      omega

/-! ## §3. Balancing keeps within the capacity. -/

omit [LinearOrder K] in
theorem length_balanceEntries_le {β : Type*} (hb : 2 ≤ underflowBound capacity)
    {l r : List (K × β)} (hl : l.length ≤ capacity) (hr : r.length ≤ capacity)
    (hunder : l.length < underflowBound capacity ∨ r.length < underflowBound capacity) :
    (balanceEntries capacity l r).1.length ≤ capacity
      ∧ (balanceEntries capacity l r).2.1.length ≤ capacity := by
  have hbound : underflowBound capacity ≤ capacity := by
    unfold underflowBound at hb ⊢
    omega
  rcases balanceEntries_cases (Nat.zero_lt_of_lt hb) l r with
    ⟨e, e', rest, rfl, hA, -, heq⟩ | ⟨init, e, rfl, -, hA, -, heq⟩ | ⟨hsum, heq⟩ <;>
    rw [heq] <;> simp only [List.length_append, List.length_cons, List.length_nil] at *
  · omega
  · omega
  · have := hsum hunder
    omega

/-- One of the two under-flows, and both fit after they are balanced. -/
def BalanceOk (capacity : Nat) (p : Node K V × Node K V) : Prop :=
  (p.1.size < underflowBound capacity ∨ p.2.size < underflowBound capacity)
    ∧ (afterBalance capacity p).1.size ≤ capacity ∧ (afterBalance capacity p).2.size ≤ capacity

omit [LinearOrder K] in
theorem Balancing.balanceOk (hb : 2 ≤ underflowBound capacity)
    (hp : Balancing capacity h n index c lc rc nl nr) : BalanceOk capacity (nl, nr) := by
  refine ⟨hp.under, ?_⟩
  have hl := hp.left_le
  have hr := hp.right_le
  have hunder := hp.under
  match nl, nr with
  | .leaf l, .leaf r => exact length_balanceEntries_le hb hl hr hunder
  | .inner l, .inner r => exact length_balanceEntries_le hb hl hr hunder
  | .leaf l, .inner r => exact ⟨hl, hr⟩
  | .inner l, .leaf r => exact ⟨hl, hr⟩

/-- **The pairs of one `delete_key`**, from any node of a tree, by induction over the
levels. -/
theorem balancedPairs_ok (hb : 2 ≤ underflowBound capacity)
    (hT : IsTree capacity h G row depth κ m) :
    ∀ (fuel : Nat) {a : BlkAddress} {sp : Span K} {u : Bool}, sp.level ≤ fuel → G a = some sp →
      sp.Has k → ∀ p ∈ balancedPairs capacity fuel h a k u, BalanceOk capacity p := by
  intro fuel
  induction fuel with
  | zero => intro a sp u _ _ _ p hp; cases hp
  | succ fuel ih =>
      intro a sp u hfuel hG hk p hp
      obtain ⟨node, hnode, hE⟩ := Heap.cell_of_plan hT.tree hG
      unfold balancedPairs at hp
      cases node with
      | leaf n => simp only [hnode] at hp; cases hp
      | inner n =>
          simp only [hnode] at hp
          rcases InnerNode.locateChildIndex_cases k (hT.tree.innerOk hG hE).sorted with
            ⟨hidx, -⟩ | ⟨xs, ki, c, ys, hslots, hidx, hki, hys⟩
          · rw [if_pos (by rw [hidx]; decide)] at hp
            cases hp
          have hneg : ¬ n.locateChildIndex k < 0 := by rw [hidx]; omega
          have hpos : n.slots[(n.locateChildIndex k).toNat]? = some (ki, c) := by
            rw [hidx, hslots]; exact ListSplit.getElem?_at
          have hE' : h.store a = some (.inner (xs ++ (ki, c) :: ys)) := by
            rw [hE, Node.shape, hslots]
          obtain ⟨sc, hc, hlc, hkc⟩ := hT.tree.locate hG hE' hk (fun _ => hki) hys
          obtain ⟨h₁, d, u₁, heq, hdel⟩ := delete_spec hb hT fuel u (by omega) hc hkc
          simp only [hneg, if_false, hpos, heq, List.mem_append] at hp
          rcases hp with hp | hp
          · exact ih (by omega) hc hkc p hp
          · split at hp
            · cases hp
            · rename_i hstop
              have hflags : d = true ∧ u₁ = true ∧ 2 ≤ n.slots.length := by
                simp only [Bool.or_eq_true, Bool.not_eq_true', decide_eq_true_eq, not_or,
                  Bool.not_eq_false, not_lt] at hstop
                exact hstop
              obtain ⟨rfl, rfl, hwide⟩ := hflags
              obtain ⟨lc, rc, nl, nr, hbal, -⟩ := balancing hG hnode hslots hidx hlc hdel hwide
              rw [hbal.pairAt_eq, Option.mem_toList] at hp
              cases hp
              exact hbal.balanceOk hb

end Node

/-! ## §4. Calls and runs. -/

namespace VanillaBPlusTree

variable {capacity : Nat}

/-- The pairs of nodes that a call balances. -/
def balancedPairs (capacity : Nat) (t : VanillaBPlusTree K V) :
    Call K V → List (Node K V × Node K V)
  | .deleteKey k => Node.balancedPairs capacity t.depth t.heap t.root k false
  | _ => []

/-- The pairs of nodes that a sequence of calls balances, as far as it returns. -/
def runBalancedPairs (capacity : Nat) :
    VanillaBPlusTree K V → List (Call K V) → List (Node K V × Node K V)
  | _, [] => []
  | t, c :: cs =>
      t.balancedPairs capacity c ++
        match t.call capacity c with
        | none => []
        | some (t, _) => runBalancedPairs capacity t cs

/-- The pairs of a run, from any tree that satisfies the invariant. -/
theorem Inv.run_balancedPairs (hcap : 3 ≤ capacity) (cs : List (Call K V)) :
    ∀ {t : VanillaBPlusTree K V} {m : K → Option V} {G : Plan K BlkAddress} {κ : K},
      t.Inv capacity m G κ → ∀ p ∈ runBalancedPairs capacity t cs, Node.BalanceOk capacity p := by
  induction cs with
  | nil => intro t m G κ _ p hp; cases hp
  | cons c cs ih =>
      intro t m G κ h p hp
      obtain ⟨t', G', κ', hcall, h'⟩ := call_inv hcap h c
      simp only [runBalancedPairs, hcall, List.mem_append] at hp
      rcases hp with hp | hp
      · cases c with
        | insert k v => cases hp
        | deleteKey k =>
            exact Node.balancedPairs_ok (two_le_underflowBound hcap)
              ⟨h.tree, h.ok, h.edge, h.map⟩ t.depth le_rfl h.plan_root
              ⟨bot_le, key_lt_top k⟩ p hp
        | search k => cases hp
      · exact ih h' p hp

/-- **Balancing never overfills a node** at `CAPACITY` 3 and above: whenever two
children are balanced, one of them under-flows, and both fit afterwards. -/
theorem run_balanced (hcap : 3 ≤ capacity) (cs : List (Call K V)) :
    ∀ p ∈ runBalancedPairs capacity (init : VanillaBPlusTree K V) cs, Node.BalanceOk capacity p := by
  cases isEmpty_or_nonempty K with
  | inl hK =>
      cases cs with
      | nil => intro p hp; cases hp
      | cons c cs => cases c <;> exact hK.elim ‹K›
  | inr hK =>
      obtain ⟨κ⟩ := hK
      exact Inv.run_balancedPairs hcap cs (init_inv κ)

/-- A run that merges two leaves. -/
theorem run_balanced_three :
    (runBalancedPairs 3 (init : VanillaBPlusTree Nat Nat)
        [.insert 1 10, .insert 2 20, .insert 3 30, .insert 4 40, .deleteKey 4, .deleteKey 3]).length
      = 1
    ∧ ∀ p ∈ runBalancedPairs 3 (init : VanillaBPlusTree Nat Nat)
        [.insert 1 10, .insert 2 20, .insert 3 30, .insert 4 40, .deleteKey 4, .deleteKey 3],
      Node.BalanceOk 3 p :=
  ⟨by decide, run_balanced le_rfl _⟩

/-- **At `CAPACITY` 2** the inner node over the leaf of key 1 has a single child and
passes the flag of the empty leaf on: it is merged with a neighbour of two children,
and neither of them under-flows. -/
theorem run_overfills :
    ∃ p ∈ runBalancedPairs 2 (init : VanillaBPlusTree Nat Nat)
        [.insert 1 10, .insert 2 20, .insert 3 30, .insert 4 40, .deleteKey 1],
      p.1.size = 1 ∧ p.2.size = 2 ∧ underflowBound 2 = 1
        ∧ (Node.afterBalance 2 p).1.size = 3 ∧ ¬ Node.BalanceOk 2 p := by
  refine ⟨(.inner ⟨2, [(1, 0)], true⟩, .inner ⟨4, [(2, 1), (3, 3)], true⟩), by decide, rfl, rfl, rfl,
    rfl, ?_⟩
  rintro ⟨hunder, -⟩
  exact absurd hunder (by decide)

end VanillaBPlusTree

end NvmTree
