/-
  NvmTree.Vanilla.Delete — deletion keeps the tree and unbinds the key.

  A deletion removes the entry at the leaf; on the way up a node that
  under-flowed is balanced with a neighbour: `Tree.shift` when an entry is
  borrowed, `Tree.merge` when the two are merged, `Tree.collapse` when the root
  is left with one child.

  Main results:
    * `rebalance_spec` — one balancing step, at any inner node.
    * `delete_spec` — `Node.deleteKey` from any node of a tree.
    * `VanillaBPlusTree.deleteKey_planned` — `delete_key` returns, tells whether the
      key was there, keeps the invariant and unbinds the key.
-/
import NvmTree.Vanilla.Insert

namespace NvmTree

open RangeTree

variable {K V : Type*} [LinearOrder K] {capacity : Nat} {h h' : Heap K V}
  {G : Plan K BlkAddress} {row : List (K × BlkAddress)} {depth : Nat} {a : BlkAddress}
  {sp : Span K} {κ k : K} {m : K → Option V}

/-! ## §1. Balancing two neighbours. -/

/-- The two nodes are leaves, linked to each other, or inner nodes with
children. -/
inductive Neighbours (rc : BlkAddress) : Node K V → Node K V → Prop
  | leaf {l r : LeafNode K V} (hl : l.rightSibling = some rc) : Neighbours rc (.leaf l) (.leaf r)
  | inner {l r : InnerNode K} (hl : l.slots ≠ []) (hr : r.slots ≠ []) :
      Neighbours rc (.inner l) (.inner r)

omit [LinearOrder K] in
/-- **`balance`**: the contents are divided anew at the boundary, or joined. -/
theorem balance_spec (hb : 2 ≤ underflowBound capacity) {lc rc : BlkAddress} {nl nr : Node K V}
    (hl : h.cells lc = some nl) (hr : h.cells rc = some nr) (hnb : Neighbours rc nl nr)
    (hunder : nl.size < underflowBound capacity ∨ nr.size < underflowBound capacity)
    (hsl : nl.size ≤ capacity) (hsr : nr.size ≤ capacity) :
    ∃ l' r' boundary, Node.balance capacity h lc rc = some ((h.set lc l').set rc r', boundary)
      ∧ l'.selfRep = nl.selfRep ∧ r'.selfRep = nr.selfRep ∧ l'.size ≤ capacity
      ∧ r'.size ≤ capacity
      ∧ ((∃ b' sh, boundary = some b' ∧ Joined nl.shape nr.shape sh
            ∧ Halves rc b' sh l'.shape r'.shape)
        ∨ (boundary = none ∧ Joined nl.shape nr.shape l'.shape
            ∧ ∀ n, l' = .inner n → 2 ≤ n.slots.length)) := by
  have hbound : underflowBound capacity ≤ capacity := by
    unfold underflowBound at *; omega
  cases hnb with
  | @leaf l r hsib =>
      simp only [Node.size] at hunder hsl hsr
      rcases balanceEntries_cases (Nat.zero_lt_of_lt hb) l.entries r.entries with
        ⟨e, e', rest, hre, h1, h2, heq⟩ | ⟨init, e, hle, hne, h1, h2, heq⟩ | ⟨hcap, heq⟩
      · refine ⟨.leaf { l with entries := l.entries ++ [e], modified := true },
          .leaf { r with entries := e' :: rest, modified := true }, some e'.1, ?_, rfl, rfl, ?_, ?_,
          Or.inl ⟨e'.1, .leaf (l.entries ++ r.entries) r.rightSibling, rfl, Joined.leaf, ?_⟩⟩
        · simp [Node.balance, hl, hr, LeafNode.balance, heq]
        · simp only [Node.size, List.length_append, List.length_cons, List.length_nil]; omega
        · rw [hre] at hsr
          simp only [Node.size, List.length_cons] at hsr ⊢; omega
        · rw [hre, show l.entries ++ e :: e' :: rest = (l.entries ++ [e]) ++ (e'.1, e'.2) :: rest by
            simp]
          simp only [Node.shape, hsib]
          exact Halves.leaf (by simp)
      · refine ⟨.leaf { l with entries := init, modified := true },
          .leaf { r with entries := e :: r.entries, modified := true }, some e.1, ?_, rfl, rfl, ?_,
          ?_, Or.inl ⟨e.1, .leaf (l.entries ++ r.entries) r.rightSibling, rfl, Joined.leaf, ?_⟩⟩
        · simp [Node.balance, hl, hr, LeafNode.balance, heq]
        · rw [hle] at hsl
          simp only [Node.size, List.length_append, List.length_cons, List.length_nil] at hsl ⊢
          omega
        · simp only [Node.size, List.length_cons]; omega
        · rw [hle, show init ++ [e] ++ r.entries = init ++ (e.1, e.2) :: r.entries by simp]
          simp only [Node.shape, hsib]
          exact Halves.leaf hne
      · refine ⟨.leaf { l with
              entries := l.entries ++ r.entries
              rightSibling := r.rightSibling
              modified := true },
          .leaf { r with entries := [], modified := true }, none, ?_, rfl, rfl, ?_, by simp [Node.size],
          Or.inr ⟨rfl, Joined.leaf, by simp⟩⟩
        · simp [Node.balance, hl, hr, LeafNode.balance, heq]
        · simp only [Node.size, List.length_append]
          exact hcap hunder
  | @inner l r hnl hnr =>
      simp only [Node.size] at hunder hsl hsr
      rcases balanceEntries_cases (Nat.zero_lt_of_lt hb) l.slots r.slots with
        ⟨e, e', rest, hre, h1, h2, heq⟩ | ⟨init, e, hle, hne, h1, h2, heq⟩ | ⟨hcap, heq⟩
      · refine ⟨.inner { l with slots := l.slots ++ [e], modified := true },
          .inner { r with slots := e' :: rest, modified := true }, some e'.1, ?_, rfl, rfl, ?_, ?_,
          Or.inl ⟨e'.1, .inner (l.slots ++ r.slots), rfl, Joined.inner, ?_⟩⟩
        · simp [Node.balance, hl, hr, InnerNode.balance, heq]
        · simp only [Node.size, List.length_append, List.length_cons, List.length_nil]; omega
        · rw [hre] at hsr
          simp only [Node.size, List.length_cons] at hsr ⊢; omega
        · rw [hre, show l.slots ++ e :: e' :: rest = (l.slots ++ [e]) ++ (e'.1, e'.2) :: rest by simp]
          exact Halves.inner (by simp)
      · refine ⟨.inner { l with slots := init, modified := true },
          .inner { r with slots := e :: r.slots, modified := true }, some e.1, ?_, rfl, rfl, ?_,
          ?_, Or.inl ⟨e.1, .inner (l.slots ++ r.slots), rfl, Joined.inner, ?_⟩⟩
        · simp [Node.balance, hl, hr, InnerNode.balance, heq]
        · rw [hle] at hsl
          simp only [Node.size, List.length_append, List.length_cons, List.length_nil] at hsl ⊢
          omega
        · simp only [Node.size, List.length_cons]; omega
        · rw [hle, show init ++ [e] ++ r.slots = init ++ (e.1, e.2) :: r.slots by simp]
          exact Halves.inner hne
      · refine ⟨.inner { l with slots := l.slots ++ r.slots, modified := true },
          .inner { r with slots := [], modified := true }, none, ?_, rfl, rfl, ?_, by simp [Node.size],
          Or.inr ⟨rfl, Joined.inner, ?_⟩⟩
        · simp [Node.balance, hl, hr, InnerNode.balance, heq]
        · simp only [Node.size, List.length_append]
          exact hcap hunder
        · rintro n hn
          cases hn
          have h1 := List.length_pos_iff.2 hnl
          have h2 := List.length_pos_iff.2 hnr
          simp only [List.length_append]
          omega

/-- The heap is a tree that holds `m`. -/
structure IsTree (capacity : Nat) (h : Heap K V) (G : Plan K BlkAddress)
    (row : List (K × BlkAddress)) (depth : Nat) (κ : K) (m : K → Option V) : Prop where
  tree : Tree h.store G row depth
  ok : h.Ok capacity
  edge : Edge h.store G κ
  map : Represents h.store G m

/-- Two children side by side are neighbours in the sense of `balance`. -/
theorem IsTree.neighbours (hT : IsTree capacity h G row depth κ m) {b : K}
    {lc rc : BlkAddress} {la ha : Bound K} {l : Nat} (hGl : G lc = some ⟨l, la, key b⟩) (hGr : G rc = some ⟨l, key b, ha⟩) {nl nr : Node K V}
    (hnl : h.cells lc = some nl) (hnr : h.cells rc = some nr) : Neighbours rc nl nr := by
  have hokl := hT.tree.nodeOk hGl (Heap.store_eq hnl)
  have hokr := hT.tree.nodeOk hGr (Heap.store_eq hnr)
  cases nl with
  | leaf nl =>
      cases nr with
      | leaf nr =>
          -- the next leaf starts where the left one ends, and that is `rc`
          have hlev : l = 1 := hokl.level
          have hnext := hokl.next
          refine Neighbours.leaf ?_
          cases hsib : nl.rightSibling with
          | none => rw [hsib] at hnext; exact absurd hnext (key_ne_top b)
          | some y =>
              rw [hsib] at hnext
              obtain ⟨hi', hy⟩ := hnext
              rw [hT.tree.eq_of_lo hy hGr hlev.symm rfl]
      | inner nr =>
          have h1 : l = 1 := hokl.level
          have h2 : 2 ≤ l := hokr.level
          omega
  | inner nl =>
      cases nr with
      | leaf nr =>
          have h1 : l = 1 := hokr.level
          have h2 : 2 ≤ l := hokl.level
          omega
      | inner nr => exact Neighbours.inner hokl.covers.ne_nil hokr.covers.ne_nil

/-- What one balancing step leaves: the tree, with the plan and the cells of the
levels above as they were; the node has the same slots with another boundary,
or one slot less. -/
structure Rebalanced (capacity : Nat) (h h' : Heap K V) (G : Plan K BlkAddress)
    (row : List (K × BlkAddress)) (depth : Nat) (κ : K) (m : K → Option V) (a : BlkAddress)
    (sp : Span K) (n : InnerNode K) (underflow : Bool) : Prop where
  tree : ∃ G', IsTree capacity h' G' row depth κ m ∧ (h.Planned G → h'.Planned G')
    ∧ ∀ {x sx}, sp.level ≤ sx.level → (G' x = some sx ↔ G x = some sx)
  frame : ∀ {x sx}, G x = some sx → sp.level < sx.level → h'.cells x = h.cells x
  node : ∃ n', h'.cells a = some (.inner n')
    ∧ ((underflow = false ∧ n'.slots.length = n.slots.length)
      ∨ (underflow = decide (n'.slots.length < underflowBound capacity)
        ∧ n'.slots.length + 1 = n.slots.length
        ∧ ∀ kc c nc, n'.slots = [(kc, c)] → h'.cells c = some (.inner nc) → 2 ≤ nc.slots.length))

/-- **One balancing step.** -/
theorem rebalance_spec (hb : 2 ≤ underflowBound capacity)
    (hT : IsTree capacity h G row depth κ m) (hG : G a = some sp) {n : InnerNode K}
    (hn : h.cells a = some (.inner n)) {xs ys : List (K × BlkAddress)} {kl b : K}
    {lc rc : BlkAddress} (hslots : n.slots = xs ++ (kl, lc) :: (b, rc) :: ys)
    (hunder : ∀ nl nr, h.cells lc = some nl → h.cells rc = some nr →
      nl.size < underflowBound capacity ∨ nr.size < underflowBound capacity) :
    ∃ h' u, Node.rebalance capacity h a n xs.length = some (h', true, u)
      ∧ Rebalanced capacity h h' G row depth κ m a sp n u := by
  obtain ⟨ht, hok, hedge, hm⟩ := hT
  have hrep : n.selfRep = a := hok.selfRep hn
  have ha := hok.allocated hn
  have hE : h.store a = some (.inner (xs ++ (kl, lc) :: (b, rc) :: ys)) := by
    rw [Heap.store_eq hn, Node.shape, hslots]
  have hin := ht.innerOk hG hE
  obtain ⟨la, hr, hGl, hGr, -, -⟩ := hin.covers.neighbours
  obtain ⟨nl, hnl, hEl⟩ := Heap.cell_of_plan ht hGl
  obtain ⟨nr, hnr, hEr⟩ := Heap.cell_of_plan ht hGr
  have hnb := IsTree.neighbours ⟨ht, hok, hedge, hm⟩ hGl hGr hnl hnr
  have hlca : lc ≠ a := ht.child_ne hG hE (show (kl, lc) ∈ _ by simp)
  have hrca : rc ≠ a := ht.child_ne hG hE (show (b, rc) ∈ _ by simp)
  have hrl : rc ≠ lc := by
    rintro rfl
    rw [hGl] at hGr
    cases hGr
    exact absurd (ht.lo_lt_hi hGl) (lt_irrefl _)
  have hlt := hedge.keys_lt ht hG hE hEl
  have hlevel : sp.level - 1 < sp.level := by have := hin.level; omega
  obtain ⟨l', r', boundary, hbal, hrl', hrr', hsl', hsr', hcase⟩ := balance_spec hb hnl hnr hnb
    (hunder nl nr hnl hnr) (hok.size_le hnl) (hok.size_le hnr)
  have hok2 : ((h.set lc l').set rc r').Ok capacity :=
    (hok.set (hrl'.trans (hok.selfRep hnl)) (hok.allocated hnl) hsl').set
      (hrr'.trans (hok.selfRep hnr)) (hok.allocated hnr) hsr'
  have hi1 : n.slots[xs.length]? = some (kl, lc) := by
    rw [hslots]; exact ListSplit.getElem?_at
  have hcut : n.slots = (xs ++ [(kl, lc)]) ++ (b, rc) :: ys := by rw [hslots]; simp
  have hlen : xs.length + 1 = (xs ++ [(kl, lc)]).length := by simp
  have hi2 : n.slots[xs.length + 1]? = some (b, rc) := by
    rw [hcut, hlen]; exact ListSplit.getElem?_at
  -- the cells of the levels above are none of the three nodes
  have hne : ∀ {x sx}, G x = some sx → sp.level < sx.level → x ≠ lc ∧ x ≠ rc ∧ x ≠ a := by
    intro x sx hx hl
    refine ⟨?_, ?_, ?_⟩
    · rintro rfl; rw [hGl] at hx; cases hx; simp only at hl; omega
    · rintro rfl; rw [hGr] at hx; cases hx; simp only at hl; omega
    · rintro rfl; rw [hG] at hx; cases hx; omega
  rcases hcase with ⟨b', sh, rfl, hj, hhalf⟩ | ⟨rfl, hj, hwide⟩
  · -- an entry was borrowed: the boundary moves
    have hset : (n.setBoundary (xs.length + 1) b').slots = xs ++ (kl, lc) :: (b', rc) :: ys := by
      show n.slots.modify (xs.length + 1) (fun s => (b', s.2)) = _
      rw [hcut, hlen, ListSplit.modify_at]
      simp
    have hstore : (((h.set lc l').set rc r').set a
        (.inner (n.setBoundary (xs.length + 1) b'))).store
        = splitStore h.store (some a) lc rc l'.shape r'.shape (xs ++ (kl, lc) :: (b', rc) :: ys) := by
      simp only [Heap.store_set, Node.shape, hset]
      rfl
    have hshift := ht.shift hG hE hGl hGr hEl hEr hj hlt hhalf
    refine ⟨((h.set lc l').set rc r').set a (.inner (n.setBoundary (xs.length + 1) b')), false,
      by simp only [Node.rebalance, hi1, hi2, hbal],
      ⟨cutPlan (joinPlan G lc rc (sp.level - 1) la hr) lc rc (sp.level - 1) la hr b',
        ⟨?_, ?_, ?_, ?_⟩, ?_, ?_⟩, ?_, ?_⟩
    · rw [hstore]; exact hshift.1
    · refine hok2.set (n := .inner (n.setBoundary (xs.length + 1) b')) hrep ha ?_
      have := hok.size_le hn
      simp only [Node.size, hslots, hset, List.length_append, List.length_cons] at this ⊢
      exact this
    · rw [hstore]; exact hedge.shift ht hG hE hGl hGr hEl hEr hj hhalf
    · rw [hstore]; exact hm.congr hshift.2
    · intro hp x nx hx
      by_cases hxr : x = rc
      · subst hxr
        exact ⟨_, cutPlan_right⟩
      · by_cases hxl : x = lc
        · subst hxl
          exact ⟨_, cutPlan_left hrl⟩
        · rw [cutPlan_other hxl hxr, joinPlan_other hxl hxr]
          by_cases hxa : x = a
          · exact ⟨sp, hxa ▸ hG⟩
          · exact hp x nx (by simpa [Heap.set, hxr, hxl, hxa] using hx)
    · intro x sx hl
      rw [cutPlan_above (joinPlan_left hrl) joinPlan_right (by omega),
        joinPlan_above hGl hGr (by omega)]
    · intro x sx hx hl
      obtain ⟨h1, h2, h3⟩ := hne hx hl
      simp [Heap.set, Function.update_of_ne h1, Function.update_of_ne h2, Function.update_of_ne h3]
    · refine ⟨n.setBoundary (xs.length + 1) b', by simp [Heap.set], Or.inl ⟨rfl, ?_⟩⟩
      rw [hset, hslots]
      simp
  · -- the two were merged: the slot of the right one goes
    have hset : (n.removeChild (xs.length + 1)).slots = xs ++ (kl, lc) :: ys := by
      show n.slots.eraseIdx (xs.length + 1) = _
      rw [hcut, hlen, ListSplit.eraseIdx_at]
      simp
    have hagree : ∀ x, x ≠ rc → ((((h.set lc l').set rc r').free rc).set a
        (.inner (n.removeChild (xs.length + 1)))).store x
        = mergeStore h.store a lc l'.shape (xs ++ (kl, lc) :: ys) x := by
      intro x hx
      simp only [Heap.store_set, Heap.store_free, Node.shape, hset, mergeStore]
      by_cases hxa : x = a
      · subst hxa; simp
      · simp only [Function.update_of_ne hxa, Function.update_of_ne hx]
    have hcongr : ∀ x sx, joinPlan G lc rc (sp.level - 1) la hr x = some sx →
        ((((h.set lc l').set rc r').free rc).set a
          (.inner (n.removeChild (xs.length + 1)))).store x
          = mergeStore h.store a lc l'.shape (xs ++ (kl, lc) :: ys) x := by
      intro x sx hx
      refine hagree x ?_
      rintro rfl
      rw [joinPlan_right] at hx
      cases hx
    refine ⟨(((h.set lc l').set rc r').free rc).set a (.inner (n.removeChild (xs.length + 1))),
      decide ((n.removeChild (xs.length + 1)).size < underflowBound capacity),
      by simp only [Node.rebalance, hi1, hi2, hbal],
      ⟨joinPlan G lc rc (sp.level - 1) la hr, ⟨?_, ?_, ?_, ?_⟩, ?_, ?_⟩, ?_, ?_⟩
    · exact (ht.merge hG hE hGl hGr hEl hEr hj hlt).congr hcongr
    · refine (hok2.free rc).set (n := .inner (n.removeChild (xs.length + 1))) hrep ha ?_
      have := hok.size_le hn
      simp only [Node.size, hslots, hset, List.length_append, List.length_cons] at this ⊢
      omega
    · exact (hedge.merge hG hE hGl hEl hj ht hrl).congr hcongr
    · exact hm.congr (fun k v => (holds_congr hcongr).trans
        (ht.holds_merge hG hE hGl hGr hEl hEr hj _))
    · intro hp x nx hx
      by_cases hxa : x = a
      · refine ⟨sp, ?_⟩
        rw [hxa, joinPlan_other hlca.symm hrca.symm]
        exact hG
      · by_cases hxr : x = rc
        · simp [Heap.set, Heap.free, hxr, hrca] at hx
        · by_cases hxl : x = lc
          · subst hxl
            exact ⟨_, joinPlan_left hrl⟩
          · rw [joinPlan_other hxl hxr]
            exact hp x nx (by simpa [Heap.set, Heap.free, hxr, hxl, hxa] using hx)
    · intro x sx hl
      exact joinPlan_above hGl hGr (by omega)
    · intro x sx hx hl
      obtain ⟨h1, h2, h3⟩ := hne hx hl
      simp [Heap.set, Heap.free, Function.update_of_ne h1, Function.update_of_ne h2,
        Function.update_of_ne h3]
    · refine ⟨n.removeChild (xs.length + 1), by simp [Heap.set], Or.inr ⟨rfl, ?_, ?_⟩⟩
      · rw [hset, hslots]
        simp only [List.length_append, List.length_cons]
        omega
      · intro kc c nc hone hc
        -- the one slot left is that of the merged child
        rw [hset] at hone
        obtain ⟨rfl, rfl⟩ : xs = [] ∧ ys = [] := by
          have := congrArg List.length hone
          simp only [List.length_append, List.length_cons, List.length_nil] at this
          exact ⟨List.length_eq_zero_iff.1 (by omega), List.length_eq_zero_iff.1 (by omega)⟩
        simp only [List.nil_append, List.cons.injEq, Prod.mk.injEq, and_true] at hone
        obtain ⟨rfl, rfl⟩ := hone
        have hl' : l' = .inner nc := by
          simpa [Heap.set, Heap.free, Function.update_of_ne hlca, Function.update_of_ne hrl.symm]
            using hc
        exact hwide nc hl'

/-! ## §2. Deletion, level by level. -/

/-- What `delete_key` at the cell `a` leaves, when it was called with the flag
`u₀` and returned `deleted` and the flag `u`. -/
structure Deleted (capacity : Nat) (h h' : Heap K V) (G : Plan K BlkAddress)
    (row : List (K × BlkAddress)) (depth : Nat) (κ : K) (m : K → Option V) (a : BlkAddress)
    (sp : Span K) (k : K) (u₀ deleted u : Bool) : Prop where
  found : deleted = (m k).isSome
  same : deleted = false → h' = h ∧ u = u₀
  tree : deleted = true → ∃ G', IsTree capacity h' G' row depth κ (Function.update m k none)
    ∧ (h.Planned G → h'.Planned G')
    ∧ ∀ {x sx}, sp.level ≤ sx.level → (G' x = some sx ↔ G x = some sx)
  frame : ∀ {x sx}, G x = some sx → sp.level < sx.level → h'.cells x = h.cells x
  under : deleted = true → u = true → ∃ n, h'.cells a = some n ∧ n.size < underflowBound capacity
  node : ∀ {n}, h.cells a = some (.inner n) → ∃ n', h'.cells a = some (.inner n')
    ∧ (n'.slots.length = n.slots.length
      ∨ (u = decide (n'.slots.length < underflowBound capacity)
        ∧ n'.slots.length + 1 = n.slots.length
        ∧ ∀ kc c nc, n'.slots = [(kc, c)] → h'.cells c = some (.inner nc) → 2 ≤ nc.slots.length))

/-- Nothing was deleted because the key is not in the map. -/
theorem deleted_none (hk : m k = none) (u : Bool) :
    Deleted capacity h h G row depth κ m a sp k u false u := by
  refine ⟨by rw [hk]; rfl, fun _ => ⟨rfl, rfl⟩, nofun, fun _ _ => rfl,
    nofun, fun {n} hn => ⟨n, hn, Or.inl rfl⟩⟩

/-- **Deletion at a leaf.** -/
theorem delete_leaf (hT : IsTree capacity h G row depth κ m) (hG : G a = some sp)
    (hk : sp.Has k) {n : LeafNode K V} (hn : h.cells a = some (.leaf n)) (fuel : Nat) (u : Bool) :
    ∃ h' d u', Node.deleteKey capacity (fuel + 1) h a k u = some (h', d, u')
      ∧ Deleted capacity h h' G row depth κ m a sp k u d u' := by
  obtain ⟨ht, hok, hedge, hm⟩ := hT
  have hE : h.store a = some (.leaf n.entries n.rightSibling) := Heap.store_eq hn
  have hleaf := ht.leafOk hG hE
  have hrep : n.selfRep = a := hok.selfRep hn
  rcases LeafNode.deleteKey_cases k capacity hleaf.sorted u with
    ⟨v, hmem, hlen, heq⟩ | ⟨hnot, heq⟩
  · have hbound : m k = some v := (hm k v).2 ((ht.holds_iff hG hE hk).2 hmem)
    obtain ⟨ht', hm'⟩ := ht.eraseEntry hm hG hE hk
    have hstore : (h.set a (.leaf { n with entries := eraseEntry k n.entries, modified := true })).store
        = Function.update h.store a (some (.leaf (eraseEntry k n.entries) n.rightSibling)) :=
      Heap.store_set ..
    refine ⟨h.set a (.leaf { n with entries := eraseEntry k n.entries, modified := true }), true,
      decide ((eraseEntry k n.entries).length < underflowBound capacity),
      by simp only [Node.deleteKey, hn, heq], by rw [hbound]; rfl, nofun,
      fun _ => ⟨G, ⟨?_, ?_, ?_, ?_⟩, fun hp => hp.set ⟨sp, hG⟩, fun _ => Iff.rfl⟩, ?_, ?_, ?_⟩
    · rw [hstore]; exact ht'
    · refine hok.set (n := .leaf { n with entries := eraseEntry k n.entries, modified := true })
        hrep (hok.allocated hn) ?_
      have hle := hok.size_le hn
      simp only [Node.size, LeafNode.size] at hle hlen ⊢
      omega
    · rw [hstore]; exact hedge.setLeaf
    · rw [hstore]; exact hm'
    · intro x sx hx hl
      refine Function.update_of_ne ?_ _ _
      rintro rfl
      rw [hG] at hx
      cases hx
      exact absurd hl (lt_irrefl _)
    · intro _ hu
      exact ⟨_, Function.update_self .., of_decide_eq_true hu⟩
    · intro n' hn'
      rw [hn] at hn'
      cases hn'
  · have hnone : m k = none := by
      cases hmk : m k with
      | none => rfl
      | some v =>
          have hmem := (ht.holds_iff hG hE hk).1 ((hm k v).1 hmk)
          exact absurd rfl (hnot _ hmem)
    refine ⟨h, false, u, ?_, deleted_none hnone u⟩
    simp only [Node.deleteKey, hn, heq]
    rw [Heap.set_self hn]

omit [LinearOrder K] in
/-- The neighbours that are balanced: the child and the one before it, or after
it when it is the first. -/
theorem balanced_pair {slots xs ys : List (K × BlkAddress)} {ki : K} {c : BlkAddress}
    (hslots : slots = xs ++ (ki, c) :: ys) (hsize : 2 ≤ slots.length) :
    ∃ zs kl lc b rc ws, slots = zs ++ (kl, lc) :: (b, rc) :: ws ∧ (lc = c ∨ rc = c)
      ∧ (if (1 : Int) ≤ xs.length then ((xs.length : Int) - 1).toNat else (xs.length : Int).toNat)
        = zs.length := by
  by_cases hx : xs = []
  · subst hx
    cases ys with
    | nil => rw [hslots] at hsize; simp at hsize
    | cons y ys =>
        refine ⟨[], ki, c, y.1, y.2, ys, hslots, Or.inl rfl, ?_⟩
        simp
  · obtain ⟨zs, z, rfl⟩ : ∃ zs z, xs = zs ++ [z] := ⟨_, _, (List.dropLast_concat_getLast hx).symm⟩
    refine ⟨zs, z.1, z.2, ki, c, ys, by rw [hslots]; simp, Or.inr rfl, ?_⟩
    rw [if_pos (by simp only [List.length_append, List.length_cons]; omega)]
    simp

/-- **Deletion at an inner node**, from deletion at its child. -/
theorem delete_inner (hb : 2 ≤ underflowBound capacity) (hT : IsTree capacity h G row depth κ m)
    (hG : G a = some sp) (hk : sp.Has k) {n : InnerNode K} (hn : h.cells a = some (.inner n))
    (fuel : Nat) (u : Bool)
    (ih : ∀ {c sc}, sc.level + 1 = sp.level → G c = some sc → sc.Has k →
      ∃ h' d u', Node.deleteKey capacity fuel h c k u = some (h', d, u')
        ∧ Deleted capacity h h' G row depth κ m c sc k u d u') :
    ∃ h' d u', Node.deleteKey capacity (fuel + 1) h a k u = some (h', d, u')
      ∧ Deleted capacity h h' G row depth κ m a sp k u d u' := by
  have hE : h.store a = some (.inner n.slots) := Heap.store_eq hn
  have hin := hT.tree.innerOk hG hE
  rcases InnerNode.locateChildIndex_cases k hin.sorted with ⟨hidx, hbelow⟩ | ⟨xs, ki, c, ys,
    hslots, hidx, hki, hys⟩
  · -- the key is below every slot, so it is nowhere in the tree
    have hnone : m k = none := by
      cases hmk : m k with
      | none => rfl
      | some v =>
          refine (hT.tree.not_holds_of_below sp.level rfl hG hE hk ?_ ((hT.map k v).1 hmk)).elim
          intro x hx
          obtain ⟨s, hs, rfl⟩ := List.mem_map.1 hx
          exact hbelow s hs
    refine ⟨h, false, u, ?_, deleted_none hnone u⟩
    simp only [Node.deleteKey, hn, hidx]
    rfl
  · have hE' : h.store a = some (.inner (xs ++ (ki, c) :: ys)) := by rw [hE, hslots]
    obtain ⟨sc, hc, hlc, hkc⟩ := hT.tree.locate hG hE' hk (fun _ => hki) hys
    obtain ⟨h1, d, u1, heq, hfound, hsame, htree, hframe, hunder, -⟩ := ih hlc hc hkc
    have hneg : ¬ n.locateChildIndex k < 0 := by rw [hidx]; omega
    have hpos : n.slots[(n.locateChildIndex k).toNat]? = some (ki, c) := by
      rw [hidx, hslots]; exact ListSplit.getElem?_at
    have hcell : h1.cells a = some (.inner n) := (hframe hG (by omega)).trans hn
    cases d with
    | false =>
        obtain ⟨rfl, rfl⟩ := hsame rfl
        refine ⟨h1, false, u1, ?_, deleted_none ?_ u1⟩
        · simp [Node.deleteKey, hn, hneg, hpos, heq]
        · simpa using hfound.symm
    | true =>
        obtain ⟨G1, hT1, hP1, hG1⟩ := htree rfl
        by_cases hstop : (!u1 || decide (n.size < 2)) = true
        · refine ⟨h1, true, u1, ?_, hfound, nofun,
            fun _ => ⟨G1, hT1, hP1, fun hl => hG1 (by omega)⟩, fun hx hl => hframe hx (by omega), ?_, ?_⟩
          · simp only [Node.deleteKey, hn, hneg, hpos, heq, hstop, if_false, if_true, Bool.not_true,
              Bool.false_eq_true]
          · intro _ hu1
            subst hu1
            refine ⟨_, hcell, ?_⟩
            have : n.size < 2 := by simpa using hstop
            exact this.trans_le hb
          · intro n₀ hn₀
            rw [hn] at hn₀
            cases hn₀
            exact ⟨n, hcell, Or.inl rfl⟩
        · have hu1 : u1 = true := by
            cases u1
            · simp at hstop
            · rfl
          have hsize : 2 ≤ n.slots.length := by
            have : ¬ n.size < 2 := by simpa [hu1] using hstop
            exact not_lt.1 this
          obtain ⟨zs, kl, lc, b, rc, ws, hpair, hchild, hleft⟩ := balanced_pair hslots hsize
          have hGa1 : G1 a = some sp := (hG1 (by omega)).2 hG
          obtain ⟨nc, hnc, hsz⟩ := hunder rfl hu1
          obtain ⟨h2, u2, hreb, ⟨⟨G2, hT2, hP2, hG2⟩, hframe2, ⟨n', hn', hcase⟩⟩⟩ :=
            rebalance_spec hb hT1 hGa1 hcell hpair (by
              intro nl nr hnl hnr
              rcases hchild with rfl | rfl
              · rw [hnc] at hnl; cases hnl; exact Or.inl hsz
              · rw [hnc] at hnr; cases hnr; exact Or.inr hsz)
          refine ⟨h2, true, u2, ?_, hfound, nofun, fun _ => ⟨G2, hT2, fun hp => hP2 (hP1 hp), ?_⟩,
            ?_, ?_, ?_⟩
          · rw [← hidx] at hleft
            simp only [Node.deleteKey, hn, hneg, hpos, heq, hstop, if_false, Bool.not_true,
              Bool.false_eq_true, hleft]
            exact hreb
          · intro x sx hl
            rw [hG2 hl, hG1 (by omega)]
          · intro x sx hx hl
            rw [hframe2 ((hG1 (by omega)).2 hx) hl]
            exact hframe hx (by omega)
          · intro _ hu2
            subst hu2
            refine ⟨_, hn', ?_⟩
            rcases hcase with ⟨hf, -⟩ | ⟨hu, -⟩
            · cases hf
            · simpa [Node.size] using hu.symm
          · intro n₀ hn₀
            rw [hn] at hn₀
            cases hn₀
            refine ⟨n', hn', ?_⟩
            rcases hcase with ⟨-, hlen⟩ | hone
            · exact Or.inl hlen
            · exact Or.inr hone

/-- **`delete_key` from any node of a tree**, by induction over the levels. -/
theorem delete_spec (hb : 2 ≤ underflowBound capacity) (hT : IsTree capacity h G row depth κ m) :
    ∀ (fuel : Nat) {a : BlkAddress} {sp : Span K} (u : Bool), sp.level ≤ fuel → G a = some sp →
      sp.Has k → ∃ h' d u', Node.deleteKey capacity fuel h a k u = some (h', d, u')
        ∧ Deleted capacity h h' G row depth κ m a sp k u d u' := by
  intro fuel
  induction fuel with
  | zero =>
      intro a sp u hfuel hG
      have := hT.tree.level_pos hG
      omega
  | succ fuel ih =>
      intro a sp u hfuel hG hk
      obtain ⟨n, hn, -⟩ := Heap.cell_of_plan hT.tree hG
      cases n with
      | leaf n => exact delete_leaf hT hG hk hn fuel u
      | inner n => exact delete_inner hb hT hG hk hn fuel u (fun hl hc hkc => ih u (by omega) hc hkc)

/-! ## §3. The tree. -/

namespace VanillaBPlusTree

variable {t : VanillaBPlusTree K V}

/-- A root left with one child gives way to it. -/
theorem collapse_inv {h : Heap K V} {root c : BlkAddress} {depth : Nat} {κ' kc : K}
    (hT : IsTree capacity h G [(κ', root)] depth κ m) {rep : BlkAddress} {md : Bool}
    (hn : h.cells root = some (.inner ⟨rep, [(kc, c)], md⟩))
    (hwide : ∀ nc, h.cells c = some (.inner nc) → 2 ≤ nc.slots.length) :
    Inv capacity ⟨h.free root, c, depth - 1⟩ m (Function.update G root none) κ := by
  obtain ⟨ht, hok, hedge, hm⟩ := hT
  have hE : h.store root = some (.inner [(kc, c)]) := Heap.store_eq hn
  have hroot : G root = some ⟨depth, ⊥, ⊤⟩ := ht.top.2
  have hcr : c ≠ root := ht.child_ne hroot hE (show (kc, c) ∈ _ by simp)
  have hcongr : ∀ x sx, Function.update G root none x = some sx → (h.free root).store x = h.store x := by
    intro x sx hx
    rw [Heap.store_free]
    refine Function.update_of_ne ?_ _ _
    rintro rfl
    rw [Function.update_self] at hx
    cases hx
  have ht' := ht.collapse hE
  refine ⟨?_, hok.free root, ?_, ?_, ?_⟩
  · refine Tree.congr ⟨?_, ht'.level_le, ht'.lo_lt_hi, ht'.disjoint, ht'.node⟩ hcongr
    exact ht'.top.head_irrel
  · refine Edge.congr (fun x sx k' c' rest hx hlo hEx => ?_) hcongr
    by_cases hxr : x = root
    · subst hxr; rw [Function.update_self] at hx; cases hx
    · rw [Function.update_of_ne hxr] at hx
      exact hedge x sx k' c' rest hx hlo hEx
  · exact hm.congr (fun k v => (holds_congr hcongr).trans (holds_collapse hE))
  · intro nc hnc
    refine hwide nc ?_
    simpa [Heap.free, Function.update_of_ne hcr] using hnc

/-- **`delete_key`** returns, tells whether the key was there, keeps the
invariant, unbinds the key and leaks no object. -/
theorem deleteKey_planned (hb : 2 ≤ underflowBound capacity) (h : t.Inv capacity m G κ) (k : K) :
    ∃ t' G' κ', t.deleteKey capacity k = some (t', (m k).isSome)
      ∧ t'.Inv capacity (Function.update m k none) G' κ'
      ∧ (t.heap.Planned G → t'.heap.Planned G') := by
  have hT : IsTree capacity t.heap G [(κ, t.root)] t.depth κ m := ⟨h.tree, h.ok, h.edge, h.map⟩
  obtain ⟨h', d, u, heq, hdel⟩ := delete_spec (k := k) hb hT t.depth false le_rfl h.plan_root
    ⟨bot_le, key_lt_top k⟩
  have hfound := hdel.found
  cases d with
  | false =>
      obtain ⟨rfl, rfl⟩ := hdel.same rfl
      have hnone : m k = none := by simpa using hfound.symm
      refine ⟨t, G, κ, ?_, ?_, id⟩
      · simp [deleteKey, heq, hnone]
      · rw [Function.update_eq_self_iff.2 hnone.symm]
        exact h
  | true =>
      obtain ⟨G', hT', hplan, -⟩ := hdel.tree rfl
      have hroot : G' t.root = some ⟨t.depth, ⊥, ⊤⟩ := hT'.tree.top.2
      rw [← hfound]
      -- a root that stays needs two children if it is an inner node
      have hstay : (∀ {n}, h'.cells t.root = some (.inner n) → 2 ≤ n.slots.length) →
          Inv capacity { t with heap := h' } (Function.update m k none) G' κ :=
        fun hw => ⟨hT'.tree, hT'.ok, hT'.edge, hT'.map, hw⟩
      obtain ⟨n, hn, hE⟩ := Heap.cell_of_plan h.tree h.plan_root
      cases n with
      | leaf n =>
          have hlev : t.depth = 1 := (h.tree.leafOk h.plan_root hE).level
          have hleaf : ∀ {n'}, h'.cells t.root ≠ some (.inner n') := by
            intro n' hn'
            have h2 : 2 ≤ t.depth := (hT'.tree.innerOk hroot (Heap.store_eq hn')).level
            omega
          refine ⟨{ t with heap := h' }, G', κ, ?_, hstay (fun hn' => absurd hn' hleaf), hplan⟩
          simp only [deleteKey, heq]
          split
          · rename_i hn'
            exact absurd hn' hleaf
          · rfl
      | inner n =>
          obtain ⟨n', hn', hcase⟩ := hdel.node hn
          have hwide := h.root_wide hn
          by_cases hone : ∃ kc c, n'.slots = [(kc, c)]
          · obtain ⟨kc, c, hone⟩ := hone
            rcases hcase with hlen | ⟨hu, hlen, hchild⟩
            · rw [hlen.symm, hone] at hwide
              simp at hwide
            · have hu' : u = true := by
                rw [hu, hone]
                simp only [List.length_cons, List.length_nil, decide_eq_true_eq]
                omega
              obtain ⟨rep, slots, md⟩ := n'
              simp only at hone
              subst hone hu'
              refine ⟨_, _, κ, ?_, collapse_inv hT' hn' (fun nc hnc => hchild kc c nc rfl hnc),
                fun hp x n hn => ?_⟩
              · simp only [deleteKey, heq, hn']
              · by_cases hx : x = t.root
                · simp [Heap.free, hx] at hn
                · rw [Function.update_of_ne hx]
                  exact hplan hp x n (by simpa [Heap.free, hx] using hn)
          · have hw : 2 ≤ n'.slots.length := by
              have hne := (hT'.tree.innerOk hroot (Heap.store_eq hn')).covers.ne_nil
              rcases hsl : n'.slots with _ | ⟨s, _ | ⟨s', rest⟩⟩
              · exact absurd hsl hne
              · exact absurd ⟨s.1, s.2, hsl⟩ hone
              · simp
            refine ⟨{ t with heap := h' }, G', κ, ?_, hstay (fun {n''} hn'' => ?_), hplan⟩
            · simp only [deleteKey, heq]
              split
              · rename_i hn''
                rw [hn'] at hn''
                cases hn''
                exact absurd ⟨_, _, rfl⟩ hone
              · rfl
            · rw [hn'] at hn''
              cases hn''
              exact hw

end VanillaBPlusTree

end NvmTree
