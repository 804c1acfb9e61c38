/-
  NvmTree.Vanilla.Insert — insertion keeps the tree and binds the key.

  `insert_spec` is an induction over the levels.  Its post-condition speaks of
  the store in which the row that leads to the node already has the slot of the
  new right node (`setRow`): that store is a tree after each level's step, and
  the caller only has to write the row, splitting it when it is too wide.

  Main results:
    * `insert_spec` — `Node.insertWithSplitSupport` from any node of a tree.
    * `VanillaBPlusTree.insert_planned` — `insert` returns, keeps the invariant
      `Inv`, and updates the map the tree holds at one key.
-/
import NvmTree.RangeTree.Edge
import NvmTree.Vanilla.Tree

namespace NvmTree

open RangeTree

/-! ## §1. The heap as a store. -/

namespace Heap

variable {K V : Type*}

/-- What the heap holds, as cells of a tree. -/
def store (h : Heap K V) : Store K V BlkAddress := fun a => (h.cells a).map Node.shape

theorem store_eq {h : Heap K V} {a : BlkAddress} {n : Node K V} (hn : h.cells a = some n) :
    h.store a = some n.shape := by simp [store, hn]

theorem store_inner {h : Heap K V} {a : BlkAddress} {slots : List (K × BlkAddress)}
    (hs : h.store a = some (.inner slots)) :
    ∃ n, h.cells a = some (.inner n) ∧ n.slots = slots := by
  unfold store at hs
  match hc : h.cells a with
  | none => simp [hc] at hs
  | some (.leaf n) => simp [hc, Node.shape] at hs
  | some (.inner n) => exact ⟨n, rfl, by simpa [hc, Node.shape] using hs⟩

theorem store_leaf {h : Heap K V} {a : BlkAddress} {es : List (K × V)} {next : Option BlkAddress}
    (hs : h.store a = some (.leaf es next)) :
    ∃ n, h.cells a = some (.leaf n) ∧ n.entries = es ∧ n.rightSibling = next := by
  unfold store at hs
  match hc : h.cells a with
  | none => simp [hc] at hs
  | some (.leaf n) => exact ⟨n, rfl, by simpa [hc, Node.shape] using hs⟩
  | some (.inner n) => simp [hc, Node.shape] at hs

@[simp] theorem store_set (h : Heap K V) (a : BlkAddress) (n : Node K V) :
    (h.set a n).store = Function.update h.store a (some n.shape) := by
  funext x
  by_cases hx : x = a
  · subst hx; simp [store, set]
  · simp [store, set, Function.update_of_ne hx]

@[simp] theorem store_alloc (h : Heap K V) (n : Node K V) :
    (h.alloc n).store = Function.update h.store h.next (some n.shape) := by
  funext x
  by_cases hx : x = h.next
  · subst hx; simp [store, alloc]
  · simp [store, alloc, Function.update_of_ne hx]

@[simp] theorem store_free (h : Heap K V) (a : BlkAddress) :
    (h.free a).store = Function.update h.store a none := by
  funext x
  by_cases hx : x = a
  · subst hx; simp [store, free]
  · simp [store, free, Function.update_of_ne hx]

section SetAlloc

variable {h : Heap K V} {a : BlkAddress} {l r : Node K V}

/-- A node updated in place, with a new object next to it. -/
theorem cells_left (ha : a ≠ h.next) : ((h.set a l).alloc r).cells a = some l := by
  simp [set, alloc, Function.update_of_ne ha]

theorem cells_right : ((h.set a l).alloc r).cells h.next = some r := by
  simp [set, alloc]

theorem cells_other {x : BlkAddress} (hxa : x ≠ a) (hxn : x ≠ h.next) :
    ((h.set a l).alloc r).cells x = h.cells x := by
  simp [set, alloc, Function.update_of_ne hxa, Function.update_of_ne hxn]

/-- The store it gives, whatever the node held in between. -/
theorem store_set_alloc (sh : Option (Shape K V BlkAddress)) : ((h.set a l).alloc r).store
    = Function.update (Function.update (Function.update h.store a sh) a (some l.shape)) h.next
      (some r.shape) := by
  rw [store_alloc, store_set, Function.update_idem]
  rfl

end SetAlloc

/-- Every object knows its address, was allocated, and is not too wide. -/
structure Ok (capacity : Nat) (h : Heap K V) : Prop where
  selfRep : ∀ {a n}, h.cells a = some n → n.selfRep = a
  allocated : ∀ {a n}, h.cells a = some n → a < h.next
  size_le : ∀ {a n}, h.cells a = some n → n.size ≤ capacity

namespace Ok

variable {capacity : Nat} {h : Heap K V}

theorem set (hok : h.Ok capacity) {a : BlkAddress} {n : Node K V} (hrep : n.selfRep = a)
    (ha : a < h.next) (hn : n.size ≤ capacity) : (h.set a n).Ok capacity := by
  have hinv : ∀ {x m}, (h.set a n).cells x = some m → (x = a ∧ m = n) ∨ h.cells x = some m := by
    intro x m hx
    by_cases hxa : x = a
    · subst hxa
      exact Or.inl ⟨rfl, by simpa [Heap.set, eq_comm] using hx⟩
    · exact Or.inr (by simpa [Heap.set, Function.update_of_ne hxa] using hx)
  refine ⟨fun {x m} hx => ?_, fun {x m} hx => ?_, fun {x m} hx => ?_⟩
  · rcases hinv hx with ⟨rfl, rfl⟩ | hx
    · exact hrep
    · exact hok.selfRep hx
  · rcases hinv hx with ⟨rfl, rfl⟩ | hx
    · exact ha
    · exact hok.allocated hx
  · rcases hinv hx with ⟨rfl, rfl⟩ | hx
    · exact hn
    · exact hok.size_le hx

theorem alloc (hok : h.Ok capacity) {n : Node K V} (hrep : n.selfRep = h.next)
    (hn : n.size ≤ capacity) : (h.alloc n).Ok capacity := by
  have hinv : ∀ {x m}, (h.alloc n).cells x = some m →
      (x = h.next ∧ m = n) ∨ h.cells x = some m := by
    intro x m hx
    by_cases hxa : x = h.next
    · subst hxa
      exact Or.inl ⟨rfl, by simpa [Heap.alloc, eq_comm] using hx⟩
    · exact Or.inr (by simpa [Heap.alloc, Function.update_of_ne hxa] using hx)
  refine ⟨fun {x m} hx => ?_, fun {x m} hx => ?_, fun {x m} hx => ?_⟩
  · rcases hinv hx with ⟨rfl, rfl⟩ | hx
    · exact hrep
    · exact hok.selfRep hx
  · rcases hinv hx with ⟨rfl, rfl⟩ | hx
    · exact Nat.lt_succ_self _
    · exact (hok.allocated hx).trans (Nat.lt_succ_self _)
  · rcases hinv hx with ⟨rfl, rfl⟩ | hx
    · exact hn
    · exact hok.size_le hx

theorem free (hok : h.Ok capacity) (a : BlkAddress) : (h.free a).Ok capacity := by
  have hinv : ∀ {x m}, (h.free a).cells x = some m → h.cells x = some m := by
    intro x m hx
    by_cases hxa : x = a
    · subst hxa
      simp [Heap.free] at hx
    · simpa [Heap.free, Function.update_of_ne hxa] using hx
  exact ⟨fun hx => hok.selfRep (hinv hx), fun hx => hok.allocated (hinv hx),
    fun hx => hok.size_le (hinv hx)⟩

end Ok

variable [LinearOrder K] {capacity : Nat} {h : Heap K V} {G : Plan K BlkAddress}
  {row : List (K × BlkAddress)} {depth : Nat}

/-- A cell of the tree is an object. -/
theorem cell_of_plan (ht : Tree h.store G row depth) {a : BlkAddress} {sp : Span K}
    (hG : G a = some sp) : ∃ n, h.cells a = some n ∧ h.store a = some n.shape := by
  obtain ⟨sh, hs, -⟩ := ht.node hG
  match hc : h.cells a with
  | none => simp [store, hc] at hs
  | some n => exact ⟨n, rfl, store_eq hc⟩

/-- The next address is not part of the tree. -/
theorem plan_next (ht : Tree h.store G row depth) (hok : h.Ok capacity) : G h.next = none := by
  match hG : G h.next with
  | none => rfl
  | some sp =>
      obtain ⟨n, hn, -⟩ := cell_of_plan ht hG
      exact absurd (hok.allocated hn) (lt_irrefl _)

end Heap

/-! ## §2. One level of the insertion. -/

section Insert

variable {K V : Type*} [LinearOrder K] {capacity : Nat} {h h' : Heap K V}
  {G : Plan K BlkAddress} {row xs ys : List (K × BlkAddress)} {depth : Nat} {a : BlkAddress}
  {sp : Span K} {o : Option BlkAddress} {ka k κ κ₁ κ₂ : K} {v : V} {m : K → Option V}

/-- Every object is a node of the tree. -/
def Heap.Planned (h : Heap K V) (G : Plan K BlkAddress) : Prop :=
  ∀ x n, h.cells x = some n → ∃ sx, G x = some sx

omit [LinearOrder K] in
theorem Heap.Planned.set (hp : h.Planned G) (ha : ∃ sx, G a = some sx) {n : Node K V} :
    (h.set a n).Planned G := by
  intro x n' hn'
  by_cases hxa : x = a
  · subst hxa
    exact ha
  · exact hp x n' (by simpa [Heap.set, hxa] using hn')

omit [LinearOrder K] in
theorem Heap.Planned.cut (hp : h.Planned G) (ha : a ≠ h.next) {l r : Node K V} {level : Nat}
    {lo hi : Bound K} {b : K} :
    ((h.set a l).alloc r).Planned (cutPlan G a h.next level lo hi b) := by
  intro x n hn
  by_cases hxn : x = h.next
  · subst hxn
    exact ⟨_, cutPlan_right⟩
  · by_cases hxa : x = a
    · subst hxa
      exact ⟨_, cutPlan_left ha.symm⟩
    · rw [Heap.cells_other hxa hxn] at hn
      obtain ⟨sx, hx⟩ := hp x n hn
      exact ⟨sx, (cutPlan_other hxa hxn).trans hx⟩

/-- The row that leads to `a`, with the slot of a right node if there is one. -/
def rowAfter (xs : List (K × BlkAddress)) (ka : K) (a : BlkAddress)
    (ys : List (K × BlkAddress)) : Option (BlkAddress × K) → List (K × BlkAddress)
  | none => xs ++ (ka, a) :: ys
  | some (r, b) => xs ++ (ka, a) :: (b, r) :: ys

/-- `h` is a tree that holds `m`, `a` is the cell of it that is responsible for
`k`, in the row of `o`, and the slots above have been lowered for `k`. -/
structure CanInsert (capacity : Nat) (h : Heap K V) (G : Plan K BlkAddress)
    (row : List (K × BlkAddress)) (depth : Nat) (a : BlkAddress) (sp : Span K)
    (o : Option BlkAddress) (xs : List (K × BlkAddress)) (ka : K) (ys : List (K × BlkAddress))
    (m : K → Option V) (k κ₁ κ₂ : K) : Prop where
  tree : Tree h.store G row depth
  ok : h.Ok capacity
  plan : G a = some sp
  has : sp.Has k
  below : Below h.store G a k
  isRow : IsRow h.store G row o (xs ++ (ka, a) :: ys)
  map : Represents h.store G m
  edge : EdgeAt h.store G sp.level κ₁ κ₂
  edge_on : sp.lo = ⊥ → κ₁ = min κ₂ k
  edge_off : sp.lo ≠ ⊥ → κ₁ = κ₂

/-- `h'` is `h` with `k` bound to `v` below `a`; `s` is what the row of `a` still
has to take in. -/
structure Inserted (capacity : Nat) (h h' : Heap K V) (G : Plan K BlkAddress)
    (row : List (K × BlkAddress)) (depth : Nat) (a : BlkAddress) (sp : Span K)
    (o : Option BlkAddress) (xs : List (K × BlkAddress)) (ka : K) (ys : List (K × BlkAddress))
    (m : K → Option V) (k : K) (v : V) (κ : K) (s : Option (BlkAddress × K)) : Prop where
  ok : h'.Ok capacity
  /-- The levels above are as they were. -/
  frame : ∀ {x sx}, G x = some sx → sp.level < sx.level → h'.cells x = h.cells x
  tree : ∃ G', (∀ {x sx}, sp.level < sx.level → (G' x = some sx ↔ G x = some sx))
    ∧ (h.Planned G → h'.Planned G')
    ∧ Tree (setRow h'.store o (rowAfter xs ka a ys s)) G' (topRow row o (rowAfter xs ka a ys s))
        depth
    ∧ Represents (setRow h'.store o (rowAfter xs ka a ys s)) G' (Function.update m k (some v))
    ∧ Edge (setRow h'.store o (rowAfter xs ka a ys s)) G' κ
  halves : ∀ r b, s = some (r, b) → ∃ nl nr kl, h'.cells a = some nl ∧ h'.cells r = some nr
    ∧ nl.getLeftmostKey = some kl ∧ nr.getLeftmostKey = some b ∧ kl < b
  /-- An inner node that is not split loses no child. -/
  wide : ∀ {n n'}, h.cells a = some (.inner n) → h'.cells a = some (.inner n') → s = none →
    n.slots.length ≤ n'.slots.length

/-- **Insertion at a leaf.** -/
theorem insert_leaf (hcap : 2 ≤ capacity)
    (hpre : CanInsert capacity h G row depth a sp o xs ka ys m k κ₁ κ₂) {n : LeafNode K V} (hn : h.cells a = some (.leaf n)) (fuel : Nat) :
    ∃ h' s, Node.insertWithSplitSupport capacity (fuel + 1) h a k v = some (h', s)
      ∧ Inserted capacity h h' G row depth a sp o xs ka ys m k v κ₁ s := by
  obtain ⟨ht, hok, hG, hk, hB, ho, hm, hedge, -, -⟩ := hpre
  have hE : h.store a = some (.leaf n.entries n.rightSibling) := Heap.store_eq hn
  have hleaf := ht.leafOk hG hE
  have hrep := hok.selfRep hn
  have ha := hok.allocated hn
  have hoa := ht.owner_ne ho
  have hfresh := Heap.plan_next ht hok
  have hane : a ≠ h.next := ha.ne
  rw [hleaf.level] at hedge
  -- the entry is set first; a split then only moves entries
  obtain ⟨ht1, hm1⟩ := ht.setEntry (v := v) hm hG hE hk hB
  have hedge1 : Edge (Function.update h.store a (some (.leaf (setEntry k v n.entries)
      n.rightSibling))) G κ₁ := (hedge.edge ht).setLeaf
  have ho1 : IsRow (Function.update h.store a (some (.leaf (setEntry k v n.entries)
      n.rightSibling))) G row o (xs ++ (ka, a) :: ys) :=
    ho.mono (fun p hp => Function.update_of_ne (fun hpa => hoa (by rw [hp, hpa])) _ _)
      (fun p sp _ hp => ⟨sp, hp⟩)
  have hframe : ∀ {x sx}, G x = some sx → sp.level < sx.level → x ≠ a := by
    rintro x sx hx hl rfl
    rw [hG] at hx
    cases hx
    exact absurd hl (lt_irrefl _)
  have hinner : ∀ {m' m'' : InnerNode K} {h'' : Heap K V} {s : Option (BlkAddress × K)},
      h.cells a = some (.inner m') → h''.cells a = some (.inner m'') → s = none →
      m'.slots.length ≤ m''.slots.length := by
    intro m' m'' h'' s hm'
    rw [hn] at hm'
    cases hm'
  rcases LeafNode.insertWithSplitSupport_cases k v hleaf.sorted hcap (hok.size_le hn) h.next with ⟨heq, hlen⟩ | ⟨L, b, w, R, heq, happ, hL, hlL, hlR, -⟩
  · refine ⟨h.set a (.leaf (n.withEntry k v)), none, ?_, ?_, ?_, ⟨G, fun _ => Iff.rfl,
      fun hp => hp.set ⟨sp, hG⟩, ?_⟩, ?_, hinner⟩
    · simp only [Node.insertWithSplitSupport, hn, heq]
    · exact hok.set hrep ha hlen
    · intro x sx hx hl
      exact Function.update_of_ne (hframe hx hl) _ _
    · have hstore : (h.set a (.leaf (n.withEntry k v))).store = Function.update h.store a
          (some (.leaf (setEntry k v n.entries) n.rightSibling)) := Heap.store_set ..
      rw [hstore]
      show Tree (setRow _ o (xs ++ (ka, a) :: ys)) G (topRow row o (xs ++ (ka, a) :: ys)) depth
        ∧ Represents (setRow _ o (xs ++ (ka, a) :: ys)) G _ ∧ Edge (setRow _ o (xs ++ (ka, a) :: ys)) G κ₁
      rw [ho1.setRow, ho1.topRow]
      exact ⟨ht1, hm1, hedge1⟩
    · rintro r b ⟨⟩
  · rw [← happ] at ht1 hm1 hedge1 ho1
    have hEa1 : Function.update h.store a (some (.leaf (L ++ (b, w) :: R) n.rightSibling)) a
        = some (.leaf (L ++ (b, w) :: R) n.rightSibling) := Function.update_self ..
    have hhalf : Halves h.next b (.leaf (L ++ (b, w) :: R) n.rightSibling)
        (.leaf L (some h.next)) (.leaf ((b, w) :: R) n.rightSibling) := Halves.leaf hL
    have ht2 := ht1.split ho1 hG hEa1 hhalf hfresh
    have hm2 := hm1.congr (fun k v => ht1.holds_split ho1 hG hEa1 hhalf hfresh
      (xs ++ (ka, a) :: (b, h.next) :: ys))
    have hedge2 := hedge1.split ht1 ho1 hG hEa1 hhalf hfresh
    refine ⟨(h.set a (.leaf ⟨n.selfRep, some h.next, L, true⟩)).alloc
        (.leaf ⟨h.next, n.rightSibling, (b, w) :: R, true⟩), some (h.next, b), ?_, ?_, ?_,
      ⟨cutPlan G a h.next sp.level sp.lo sp.hi b, fun hl => cutPlan_above hG hfresh hl,
        fun hp => hp.cut hane, ?_⟩, ?_, hinner⟩
    · simp only [Node.insertWithSplitSupport, hn, heq]
    · exact (hok.set (n := .leaf ⟨n.selfRep, some h.next, L, true⟩) hrep ha hlL).alloc rfl hlR
    · intro x sx hx hl
      obtain ⟨nx, hnx, -⟩ := Heap.cell_of_plan ht hx
      exact Heap.cells_other (hframe hx hl) (hok.allocated hnx).ne
    · rw [Heap.store_set_alloc (some (.leaf (L ++ (b, w) :: R) n.rightSibling))]
      exact ⟨ht2, hm2, hedge2⟩
    · rintro r b' hs
      cases hs
      obtain ⟨⟨kl, wl⟩, L', rfl⟩ := List.exists_cons_of_ne_nil hL
      refine ⟨_, _, kl, Heap.cells_left hane, Heap.cells_right, rfl, rfl, ?_⟩
      have hs := hleaf.sorted.setEntry k v
      rw [← happ, sortedKeys_append] at hs
      exact hs.2.2 (kl, wl) (by simp) (b, w) (by simp)

omit [LinearOrder K] in
/-- Putting back the object that is there. -/
theorem Heap.set_self {n : Node K V} (hn : h.cells a = some n) : h.set a n = h := by
  cases h
  simp only [Heap.set, Heap.mk.injEq, and_true]
  exact Function.update_eq_self_iff.2 hn.symm

/-- **One level down.**  The child that is chosen can be inserted into, once
`key_[0]` has been lowered where the key is below it. -/
theorem descend (hpre : CanInsert capacity h G row depth a sp o xs ka ys m k κ₁ κ₂)
    {n : InnerNode K} (hn : h.cells a = some (.inner n)) :
    ∃ n' xs' ki c ys' sc, n' = (if n.locateChildIndex k < 0 then n.setFirstKey k else n)
      ∧ n'.slots = xs' ++ (ki, c) :: ys' ∧ (max 0 (n.locateChildIndex k)).toNat = xs'.length
      ∧ sc.level + 1 = sp.level ∧ n'.selfRep = n.selfRep ∧ n'.size = n.size
      ∧ CanInsert capacity (h.set a (.inner n')) G row depth c sc (some a) xs' ki ys' m k κ₁ κ₂ := by
  obtain ⟨ht, hok, hG, hk, hB, ho, hm, hedge, hon, hoff⟩ := hpre
  have hE : h.store a = some (.inner n.slots) := Heap.store_eq hn
  have hin := ht.innerOk hG hE
  have hrep : n.selfRep = a := hok.selfRep hn
  have hlev := hin.level
  obtain ⟨l, hl⟩ : ∃ l, sp.level = l + 1 := ⟨sp.level - 1, by omega⟩
  rw [hl] at hedge
  obtain ⟨⟨k₀, c₀⟩, rest, hfirst⟩ := List.exists_cons_of_ne_nil hin.covers.ne_nil
  rcases InnerNode.locateChildIndex_cases k hin.sorted with ⟨hidx, hbelow⟩ | ⟨xs', ki, c, ys',
    hslots, hidx, hki, hys⟩
  · -- the key is below every slot: the node is on the left edge and is lowered
    have hlt : k < k₀ := hbelow (k₀, c₀) (by rw [hfirst]; simp)
    have hneg : n.locateChildIndex k < 0 := by rw [hidx]; decide
    rw [hfirst] at hE hin
    have hlo : sp.lo = ⊥ := hin.lo_eq_bot hk hlt
    have hκ₂ : k₀ = κ₂ := by
      have := hedge _ _ _ _ _ hG hlo hE
      rwa [if_pos (by omega)] at this
    have hκ₁ : k = κ₁ := by
      rw [hon hlo, ← hκ₂, min_eq_right hlt.le]
    have hset : (n.setFirstKey k).slots = (k, c₀) :: rest := by
      simp [InnerNode.setFirstKey, hfirst]
    have ht' := ht.lower hG hE hk hlt hB
    have hstore : (h.set a (.inner (n.setFirstKey k))).store
        = Function.update h.store a (some (.inner ((k, c₀) :: rest))) := by
      rw [Heap.store_set, Node.shape, hset]
    obtain ⟨hi', hc₀⟩ := hin.covers.head_lo
    obtain ⟨sc, hc, hlc, hkc⟩ := ht'.locate hG
      (show Function.update h.store a (some (.inner ((k, c₀) :: rest))) a
        = some (.inner ([] ++ (k, c₀) :: rest)) from Function.update_self ..) hk (by simp)
      (fun s hs => hbelow s (by rw [hfirst]; exact List.mem_cons_of_mem _ hs))
    rw [hc] at hc₀
    cases hc₀
    refine ⟨n.setFirstKey k, [], k, c₀, rest, _, by rw [if_pos hneg], hset, by rw [hidx]; rfl, hlc,
      rfl, ?_, ?_⟩
    · simp [InnerNode.size, InnerNode.setFirstKey]
    · refine ⟨?_, ?_, hc, hkc, ?_, ⟨⟨sp, hG⟩, ?_⟩, ?_, ?_, ?_, ?_⟩
      · rw [hstore]; exact ht'
      · refine hok.set (n := .inner (n.setFirstKey k)) hrep (hok.allocated hn) ?_
        have := hok.size_le hn
        simpa [Node.size, InnerNode.setFirstKey] using this
      · rw [hstore]
        exact ht'.below_child hG (Function.update_self ..) (by simp) le_rfl
      · rw [hstore]; exact Function.update_self ..
      · rw [hstore]
        exact hm.congr (fun k v => holds_update_inner hE)
      · rw [hstore]
        simp only at hlc
        have hle : sp.level - 1 = l := by omega
        rw [show (Span.mk (sp.level - 1) sp.lo hi').level = l from hle]
        exact hedge.lower ht hG hl hlo hκ₁ hE
      · intro _; exact hon hlo
      · intro hne; exact absurd hlo hne
  · have hneg : ¬ n.locateChildIndex k < 0 := by rw [hidx]; omega
    have hE' : h.store a = some (.inner (xs' ++ (ki, c) :: ys')) := by rw [hE, hslots]
    obtain ⟨sc, hc, hlc, hkc⟩ := ht.locate hG hE' hk (fun _ => hki) hys
    have hself : h.set a (.inner n) = h := Heap.set_self hn
    -- the first slot is at most the chosen one, so the edge is not lowered
    have hk₀ : k₀ ≤ k := by
      have hs := hin.sorted
      rw [hslots] at hs hfirst
      cases xs' with
      | nil => obtain ⟨rfl, -⟩ := Prod.mk.inj (List.cons.inj hfirst).1; exact hki
      | cons x xs'' =>
          have hx : x = (k₀, c₀) := (List.cons.inj hfirst).1
          have := (sortedKeys_append.1 hs).2.2 x (by simp) (ki, c) (by simp)
          rw [hx] at this
          exact this.le.trans hki
    have hκ : κ₁ = κ₂ := by
      by_cases hlo : sp.lo = ⊥
      · have hκ₂ := hedge _ _ _ _ _ hG hlo (by rw [hE, hfirst])
        rw [if_pos (by omega)] at hκ₂
        rw [hon hlo, min_eq_left]
        rw [← hκ₂]; exact hk₀
      · exact hoff hlo
    refine ⟨n, xs', ki, c, ys', sc, by rw [if_neg hneg], hslots, ?_, hlc, rfl, rfl, ?_⟩
    · rw [hidx]; simp
    · rw [hself]
      refine ⟨ht, hok, hc, hkc, ht.below_child hG hE' (by simp) hki, ⟨⟨sp, hG⟩, hE'⟩, hm, ?_, ?_,
        fun _ => hκ⟩
      · subst hκ
        intro x sx k' c' rest' hx hlo hEx
        have := hedge x sx k' c' rest' hx hlo hEx
        rw [ite_self] at this ⊢
        exact this
      · intro hlo
        obtain ⟨sc', hc', -, hle, -⟩ := ht.child hG hE' (show (ki, c) ∈ _ by simp)
        rw [hc] at hc'
        cases hc'
        rw [hlo] at hle
        exact hon (le_bot_iff.1 hle)

/-- The row of a node is untouched by what happens below the node. -/
theorem isRow_above {E' : Store K V BlkAddress} {G' : Plan K BlkAddress}
    (hpre : CanInsert capacity h G row depth a sp o xs ka ys m k κ₁ κ₂)
    (hG' : ∀ {x sx}, sp.level ≤ sx.level → (G' x = some sx ↔ G x = some sx))
    (hE' : ∀ {x sx}, G x = some sx → sp.level < sx.level → E' x = h.store x) :
    IsRow E' G' row o (xs ++ (ka, a) :: ys) := by
  have ho := hpre.isRow
  cases o with
  | none => exact ho
  | some p =>
      obtain ⟨⟨sq, hq⟩, hEq⟩ := ho
      obtain ⟨sc, hc, hl, -, -⟩ := hpre.tree.child hq hEq (show (ka, a) ∈ _ by simp)
      rw [hpre.plan] at hc
      cases hc
      exact ⟨⟨sq, (hG' (by omega)).2 hq⟩, (hE' hq (by omega)).trans hEq⟩

/-- A row wider by one slot is written, and split where it is too wide. -/
theorem addSplitChild_spec (hcap : 2 ≤ capacity) {h₀ : Heap K V}
    (hpre : CanInsert capacity h₀ G row depth a sp o xs ka ys m k κ₁ κ₂)
    {n : InnerNode K} {xs' ys' : List (K × BlkAddress)} {s : K × BlkAddress} {r : BlkAddress}
    {b : K} (hok : h.Ok capacity) (hn : h.cells a = some (.inner n))
    (hwide : ∀ {n₀}, h₀.cells a = some (.inner n₀) → n₀.slots.length ≤ n.slots.length)
    (hslots : n.slots = xs' ++ s :: ys')
    (hframe : ∀ {x sx}, G x = some sx → sp.level < sx.level → h.cells x = h₀.cells x)
    {G' : Plan K BlkAddress}
    (hG' : ∀ {x sx}, sp.level ≤ sx.level → (G' x = some sx ↔ G x = some sx))
    (hP : h₀.Planned G → h.Planned G')
    (ht : Tree (Function.update h.store a (some (.inner (xs' ++ s :: (b, r) :: ys')))) G' row depth)
    (hm : Represents (Function.update h.store a (some (.inner (xs' ++ s :: (b, r) :: ys')))) G'
      (Function.update m k (some v)))
    (hedge : Edge (Function.update h.store a (some (.inner (xs' ++ s :: (b, r) :: ys')))) G' κ₁) :
    ∃ h' t, Node.addSplitChild capacity h a n xs'.length r b = some (h', t)
      ∧ Inserted capacity h₀ h' G row depth a sp o xs ka ys m k v κ₁ t := by
  have ha := hok.allocated hn
  have hrep : n.selfRep = a := hok.selfRep hn
  have hGa : G' a = some sp := (hG' le_rfl).2 hpre.plan
  have hne : ∀ {x sx}, G x = some sx → sp.level < sx.level → x ≠ a := by
    rintro x sx hx hl rfl
    rw [hpre.plan] at hx
    cases hx
    exact absurd hl (lt_irrefl _)
  have ho : IsRow (Function.update h.store a (some (.inner (xs' ++ s :: (b, r) :: ys')))) G' row o
      (xs ++ (ka, a) :: ys) := by
    refine isRow_above hpre hG' (fun {x sx} hx hl => ?_)
    rw [Function.update_of_ne (hne hx hl)]
    unfold Heap.store
    rw [hframe hx hl]
  have hEa : Function.update h.store a (some (.inner (xs' ++ s :: (b, r) :: ys'))) a
      = some (.inner (xs' ++ s :: (b, r) :: ys')) := Function.update_self ..
  have hin := ht.innerOk hGa hEa
  unfold Node.addSplitChild
  by_cases hroom : n.size < capacity
  · have hslots' : (n.insertInnerNode r b (xs'.length + 1)).slots = xs' ++ s :: (b, r) :: ys' :=
      InnerNode.insertInnerNode_slots hslots r b
    refine ⟨h.set a (.inner (n.insertInnerNode r b (xs'.length + 1))), none, by rw [if_pos hroom],
      ?_, ?_, ⟨G', fun {x sx} hl => hG' hl.le, fun hp => (hP hp).set ⟨sp, hGa⟩, ?_⟩, ?_, ?_⟩
    · refine hok.set (n := .inner (n.insertInnerNode r b (xs'.length + 1))) hrep ha ?_
      unfold InnerNode.size at hroom
      rw [hslots] at hroom
      simp only [Node.size, hslots', List.length_append, List.length_cons] at hroom ⊢
      omega
    · intro x sx hx hl
      rw [← hframe hx hl]
      exact Function.update_of_ne (hne hx hl) _ _
    · rw [Heap.store_set, Node.shape, hslots']
      show Tree (setRow _ o (xs ++ (ka, a) :: ys)) G' (topRow row o (xs ++ (ka, a) :: ys)) depth
        ∧ Represents (setRow _ o (xs ++ (ka, a) :: ys)) G' _
        ∧ Edge (setRow _ o (xs ++ (ka, a) :: ys)) G' κ₁
      rw [ho.setRow, ho.topRow]
      exact ⟨ht, hm, hedge⟩
    · rintro r' b' ⟨⟩
    · intro n₀ n₁ hn₀ hn₁ _
      have hn₁' : n.insertInnerNode r b (xs'.length + 1) = n₁ := by
        simpa [Heap.set] using hn₁
      have hle := hwide hn₀
      rw [hslots] at hle
      rw [← hn₁', hslots']
      simp only [List.length_append, List.length_cons] at hle ⊢
      omega
  · -- the node is full: its halves, with a slot for the right one in the row above
    have hfull : n.size = capacity := le_antisymm (hok.size_le hn) (not_lt.1 hroom)
    have hs : SortedKeys n.slots := by
      rw [hslots]
      exact List.Pairwise.sublist (List.Sublist.append_left
        ((List.sublist_cons_self _ _).cons_cons _) _) hin.sorted
    have hsort := sortedKeys_append.1 hin.sorted
    have hsort' := sortedKeys_cons.1 hsort.2.1
    obtain ⟨L, R, hsplit, happ, hL, hR, hlL, hlR⟩ := n.splitInsert_spec hs hslots hfull hcap
      (hsort'.1 (b, r) (by simp)) (sortedKeys_cons.1 hsort'.2).1 r h.next
    obtain ⟨⟨b', c'⟩, R', rfl⟩ := List.exists_cons_of_ne_nil hR
    rw [← happ] at ht hm hedge ho hEa hin
    have hfresh : G' h.next = none := by
      match hG : G' h.next with
      | none => rfl
      | some sx =>
          obtain ⟨sh, hsh, -⟩ := ht.node hG
          rw [Function.update_of_ne ha.ne'] at hsh
          match hc : h.cells h.next with
          | none => simp [Heap.store, hc] at hsh
          | some nx => exact absurd (hok.allocated hc) (lt_irrefl _)
    have hhalf : Halves (V := V) h.next b' (.inner (L ++ (b', c') :: R')) (.inner L)
        (.inner ((b', c') :: R')) := Halves.inner hL
    refine ⟨(h.set a (.inner ⟨n.selfRep, L, true⟩)).alloc (.inner ⟨h.next, (b', c') :: R', true⟩),
      some (h.next, b'), ?_, ?_, ?_, ⟨cutPlan G' a h.next sp.level sp.lo sp.hi b', ?_,
        fun hp => (hP hp).cut ha.ne, ?_⟩, ?_, fun _ _ hs => by cases hs⟩
    · simp only [if_neg hroom, hsplit]
    · exact (hok.set (n := .inner ⟨n.selfRep, L, true⟩) hrep ha hlL).alloc rfl hlR
    · intro x sx hx hl
      obtain ⟨nx, hnx, -⟩ := Heap.cell_of_plan hpre.tree hx
      rw [← hframe hx hl] at hnx ⊢
      exact Heap.cells_other (hne hx hl) (hok.allocated hnx).ne
    · intro x sx hl
      rw [cutPlan_above hGa hfresh hl]
      exact hG' hl.le
    · rw [Heap.store_set_alloc (some (.inner (L ++ (b', c') :: R')))]
      exact ⟨ht.split ho hGa hEa hhalf hfresh,
        hm.congr (fun k v => ht.holds_split ho hGa hEa hhalf hfresh _),
        hedge.split ht ho hGa hEa hhalf hfresh⟩
    · rintro r' b'' hsome
      cases hsome
      obtain ⟨⟨kl, cl⟩, L', rfl⟩ := List.exists_cons_of_ne_nil hL
      refine ⟨_, _, kl, Heap.cells_left ha.ne, Heap.cells_right, rfl, rfl, ?_⟩
      exact (sortedKeys_append.1 hin.sorted).2.2 (kl, cl) (by simp) (b', c') (by simp)

/-- **Insertion at an inner node**, from insertion at its child. -/
theorem insert_inner (hcap : 2 ≤ capacity)
    (hpre : CanInsert capacity h G row depth a sp o xs ka ys m k κ₁ κ₂) {n : InnerNode K}
    (hn : h.cells a = some (.inner n)) (fuel : Nat)
    (ih : ∀ {h' c sc xs' ki ys'}, sc.level + 1 = sp.level →
      CanInsert capacity h' G row depth c sc (some a) xs' ki ys' m k κ₁ κ₂ →
      ∃ h'' s, Node.insertWithSplitSupport capacity fuel h' c k v = some (h'', s)
        ∧ Inserted capacity h' h'' G row depth c sc (some a) xs' ki ys' m k v κ₁ s) :
    ∃ h' s, Node.insertWithSplitSupport capacity (fuel + 1) h a k v = some (h', s)
      ∧ Inserted capacity h h' G row depth a sp o xs ka ys m k v κ₁ s := by
  obtain ⟨n', xs', ki, c, ys', sc, hn', hslots, hidx, hlc, -, hsize, hchild⟩ := descend hpre hn
  obtain ⟨h2, s, heq, ⟨hok2, hframe, ⟨G', hG', hplan, ht2, hm2, hedge2⟩, -, -⟩⟩ :=
    ih hlc hchild
  have hpos : n'.slots[(max 0 (n.locateChildIndex k)).toNat]? = some (ki, c) := by
    rw [hidx, hslots]; exact ListSplit.getElem?_at
  -- the node itself and the levels above are as they were before the call
  have hcell : h2.cells a = some (.inner n') := by
    rw [hframe hpre.plan (by omega)]
    exact Function.update_self ..
  have hframe' : ∀ {x sx}, G x = some sx → sp.level < sx.level → h2.cells x = h.cells x := by
    intro x sx hx hl
    rw [hframe hx (by omega)]
    refine Function.update_of_ne ?_ _ _
    rintro rfl
    rw [hpre.plan] at hx
    cases hx
    exact absurd hl (lt_irrefl _)
  have hGabove : ∀ {x sx}, sp.level ≤ sx.level → (G' x = some sx ↔ G x = some sx) :=
    fun hl => hG' (by omega)
  have hplan' : h.Planned G → h2.Planned G' := fun hp => hplan (hp.set ⟨sp, hpre.plan⟩)
  have hwide : ∀ {n₀}, h.cells a = some (.inner n₀) → n₀.slots.length ≤ n'.slots.length := by
    intro n₀ hn₀
    rw [hn] at hn₀
    cases hn₀
    exact hsize.ge
  cases s with
  | none =>
      have hrow : IsRow h2.store G' row (some a) (xs' ++ (ki, c) :: ys') :=
        ⟨⟨sp, (hGabove le_rfl).2 hpre.plan⟩, by rw [Heap.store_eq hcell, Node.shape, hslots]⟩
      have ho : IsRow h2.store G' row o (xs ++ (ka, a) :: ys) := by
        refine isRow_above hpre hGabove (fun {x sx} hx hl => ?_)
        unfold Heap.store
        rw [hframe' hx hl]
      have hself := hrow.setRow
      unfold rowAfter at ht2 hm2 hedge2
      rw [hself] at ht2 hm2 hedge2
      refine ⟨h2, none, ?_, hok2, hframe', ⟨G', fun hl => hGabove hl.le, hplan', ?_⟩, ?_, ?_⟩
      · rw [Node.insertWithSplitSupport]
        simp only [hn, ← hn', hpos, heq]
      · unfold rowAfter
        rw [ho.setRow, ho.topRow]
        exact ⟨ht2, hm2, hedge2⟩
      · rintro r b ⟨⟩
      · intro n₀ n₁ hn₀ hn₁ _
        rw [hcell] at hn₁
        cases hn₁
        exact hwide hn₀
  | some s =>
      obtain ⟨r, b⟩ := s
      obtain ⟨h3, t, hadd, hins⟩ := addSplitChild_spec hcap hpre hok2 hcell hwide hslots hframe'
        hGabove hplan' ht2 hm2 hedge2
      refine ⟨h3, t, ?_, hins⟩
      rw [Node.insertWithSplitSupport]
      simp only [hn, ← hn', hpos, heq]
      rw [hidx]
      exact hadd

/-- **`insert_with_split_support` from any node of a tree**, by induction over
the levels. -/
theorem insert_spec (hcap : 2 ≤ capacity) :
    ∀ (fuel : Nat) {h : Heap K V} {a : BlkAddress} {sp : Span K} {o : Option BlkAddress}
      {xs ys : List (K × BlkAddress)} {ka : K}, sp.level ≤ fuel →
      CanInsert capacity h G row depth a sp o xs ka ys m k κ₁ κ₂ →
      ∃ h' s, Node.insertWithSplitSupport capacity fuel h a k v = some (h', s)
        ∧ Inserted capacity h h' G row depth a sp o xs ka ys m k v κ₁ s := by
  intro fuel
  induction fuel with
  | zero =>
      intro h a sp o xs ys ka hfuel hpre
      have := hpre.tree.level_pos hpre.plan
      omega
  | succ fuel ih =>
      intro h a sp o xs ys ka hfuel hpre
      obtain ⟨n, hn, -⟩ := Heap.cell_of_plan hpre.tree hpre.plan
      cases n with
      | leaf n => exact insert_leaf hcap hpre hn fuel
      | inner n => exact insert_inner hcap hpre hn fuel (fun hl hc => ih (by omega) hc)

end Insert

/-! ## §3. The tree. -/

namespace VanillaBPlusTree

variable {K V : Type*} [LinearOrder K] {capacity : Nat} {t : VanillaBPlusTree K V}
  {m : K → Option V}

/-- **The invariant**: the heap is a tree with one root, its first keys agree
along the left edge, an inner root has two children, and it holds `m`. -/
structure Inv (capacity : Nat) (t : VanillaBPlusTree K V) (m : K → Option V)
    (G : Plan K BlkAddress) (κ : K) : Prop where
  tree : Tree t.heap.store G [(κ, t.root)] t.depth
  ok : t.heap.Ok capacity
  edge : Edge t.heap.store G κ
  map : Represents t.heap.store G m
  root_wide : ∀ {n}, t.heap.cells t.root = some (.inner n) → 2 ≤ n.slots.length

theorem Inv.plan_root {G : Plan K BlkAddress} {κ : K} (h : t.Inv capacity m G κ) :
    G t.root = some ⟨t.depth, ⊥, ⊤⟩ := h.tree.top.2

theorem Inv.root_canInsert {G : Plan K BlkAddress} {κ : K} (h : t.Inv capacity m G κ) (k : K) :
    CanInsert capacity t.heap G [(κ, t.root)] t.depth t.root ⟨t.depth, ⊥, ⊤⟩ none [] κ [] m k
      (min κ k) κ := by
  refine ⟨h.tree, h.ok, h.plan_root, ⟨bot_le, key_lt_top k⟩, ?_, rfl, h.map, ?_, fun _ => rfl,
    fun hne => absurd rfl hne⟩
  · intro p sp sl ka hp hEp hm
    exact (h.tree.top_not_child hp hEp (show (κ, t.root) ∈ _ by simp) hm).elim
  · intro x sx k' c rest hx hlo hE
    rw [if_pos (h.tree.level_le hx)]
    exact h.edge x sx k' c rest hx hlo hE

/-- The leftmost key of a node is at most every key it shows. -/
theorem lowKey_leftmost {h : Heap K V} {G : Plan K BlkAddress} {row : List (K × BlkAddress)}
    {depth : Nat} (ht : Tree h.store G row depth) {a : BlkAddress} {sp : Span K} {n : Node K V}
    {k : K} (hG : G a = some sp) (hn : h.cells a = some n) (hk : n.getLeftmostKey = some k) :
    LowKey h.store k a := by
  have hE := Heap.store_eq hn
  have hsort := (ht.nodeOk hG hE).keys_sorted
  have hhead : n.shape.keys.head? = some k := by
    cases n with
    | leaf n => simpa [Node.shape, Shape.keys, Node.getLeftmostKey] using hk
    | inner n => simpa [Node.shape, Shape.keys, Node.getLeftmostKey] using hk
  intro sh hsh x hx
  rw [hE] at hsh
  cases hsh
  cases hkeys : n.shape.keys with
  | nil => rw [hkeys] at hx; cases hx
  | cons y rest =>
      rw [hkeys] at hhead hsort hx
      cases hhead
      rcases List.mem_cons.1 hx with rfl | hx
      · exact le_rfl
      · exact (List.rel_of_pairwise_cons hsort hx).le

/-- The split root and its right half under a new root. -/
theorem grow_inv (hcap : 2 ≤ capacity) {h : Heap K V} {root r : BlkAddress} {depth : Nat}
    {G : Plan K BlkAddress} {κ κ' kl b : K} {nl nr : Node K V}
    (ht : Tree h.store G [(κ', root), (b, r)] depth) (hok : h.Ok capacity) (hedge : Edge h.store G κ)
    (hm : Represents h.store G m) (hnl : h.cells root = some nl) (hnr : h.cells r = some nr)
    (hkl : nl.getLeftmostKey = some kl) (hkr : nr.getLeftmostKey = some b) (hlt : kl < b) :
    Inv capacity ⟨h.alloc (.inner ⟨h.next, [(kl, nl.selfRep), (b, nr.selfRep)], true⟩), h.next,
      depth + 1⟩ m (Function.update G h.next (some ⟨depth + 1, ⊥, ⊤⟩)) kl := by
  obtain ⟨-, hGl, -, hGr⟩ := ht.top
  have hfresh := Heap.plan_next ht hok
  have hs : SortedKeys [(kl, root), (b, r)] := by
    rw [sortedKeys_cons]
    exact ⟨by simpa using hlt, sortedKeys_singleton _⟩
  have hlow : ∀ s ∈ [(kl, root), (b, r)], LowKey h.store s.1 s.2 := by
    intro s hs
    simp only [List.mem_cons, List.not_mem_nil, or_false] at hs
    rcases hs with rfl | rfl
    · exact lowKey_leftmost ht hGl hnl hkl
    · exact lowKey_leftmost ht hGr hnr hkr
  have hstore : (h.alloc (.inner ⟨h.next, [(kl, nl.selfRep), (b, nr.selfRep)], true⟩)).store
      = Function.update h.store h.next (some (.inner [(kl, root), (b, r)])) := by
    rw [Heap.store_alloc, Node.shape, hok.selfRep hnl, hok.selfRep hnr]
  refine ⟨?_, hok.alloc rfl hcap, ?_, ?_, ?_⟩
  · rw [hstore]
    exact ht.grow hfresh (ht.level_pos hGl) hs hlow
  · rw [hstore]
    intro x sx k' c rest hx hlo hE
    by_cases hxn : x = h.next
    · subst hxn
      rw [Function.update_self] at hE
      cases hE
      rfl
    · rw [Function.update_of_ne hxn] at hE hx
      -- an inner cell below the new root: the old root is an inner node too
      have hlev := (ht.innerOk hx hE).level
      have hle := ht.level_le hx
      rw [hedge x sx k' c rest hx hlo hE]
      cases nl with
      | leaf nl =>
          have hleaf := (ht.leafOk hGl (Heap.store_eq hnl)).level
          simp only at hleaf
          omega
      | inner nl =>
          cases hsl : nl.slots with
          | nil => simp [Node.getLeftmostKey, hsl] at hkl
          | cons s rest' =>
              obtain ⟨k₀, c₀⟩ := s
              have hk₀ : k₀ = kl := by simpa [Node.getLeftmostKey, hsl] using hkl
              subst hk₀
              have hE₀ : h.store root = some (.inner ((k₀, c₀) :: rest')) := by
                rw [Heap.store_eq hnl, Node.shape, hsl]
              exact (hedge _ _ _ _ _ hGl rfl hE₀).symm
  · rw [hstore]
    exact hm.congr (fun k v => holds_grow hfresh)
  · intro n hn
    have hn' : (⟨h.next, [(kl, nl.selfRep), (b, nr.selfRep)], true⟩ : InnerNode K) = n := by
      simpa [Heap.alloc] using hn
    rw [← hn']
    exact le_rfl

/-- **`insert`** returns, keeps the invariant, binds the key and leaks no object. -/
theorem insert_planned (hcap : 2 ≤ capacity) {G : Plan K BlkAddress} {κ : K}
    (h : t.Inv capacity m G κ) (k : K) (v : V) :
    ∃ t' G' κ', t.insert capacity k v = some t'
      ∧ t'.Inv capacity (Function.update m k (some v)) G' κ'
      ∧ (t.heap.Planned G → t'.heap.Planned G') := by
  obtain ⟨h', s, heq, hok, -, ⟨G', -, hplan, ht, hm, hedge⟩, hhalves, hwide⟩ :=
    insert_spec (v := v) hcap t.depth le_rfl (h.root_canInsert k)
  cases s with
  | none =>
      have ht' : Tree h'.store G' [(κ, t.root)] t.depth := ht
      have htop : G' t.root = some ⟨t.depth, ⊥, ⊤⟩ := ht'.top.2
      refine ⟨{ t with heap := h' }, G', min κ k, by simp only [insert, heq],
        ⟨?_, hok, hedge, hm, ?_⟩, hplan⟩
      · exact ⟨⟨ht'.top.1, htop⟩, ht'.level_le, ht'.lo_lt_hi, ht'.disjoint, ht'.node⟩
      · intro n' hn'
        -- the root was an inner node before, and has lost no child
        obtain ⟨n, hn, hE⟩ := Heap.cell_of_plan h.tree h.plan_root
        have hlev := (ht'.innerOk htop (Heap.store_eq hn')).level
        cases n with
        | leaf n =>
            have hleaf := (h.tree.leafOk h.plan_root hE).level
            simp only at hleaf hlev
            omega
        | inner n => exact (h.root_wide hn).trans (hwide hn hn' rfl)
  | some s =>
      obtain ⟨r, b⟩ := s
      obtain ⟨nl, nr, kl, hnl, hnr, hkl, hkr, hlt⟩ := hhalves r b rfl
      refine ⟨_, _, kl, ?_, grow_inv hcap ht hok hedge hm hnl hnr hkl hkr hlt, fun hp x n hn => ?_⟩
      · simp only [insert, heq, hnl, hnr, hkl, hkr]
        rfl
      · by_cases hx : x = h'.next
        · subst hx
          exact ⟨_, Function.update_self ..⟩
        · rw [Function.update_of_ne hx]
          exact hplan hp x n (by simpa [Heap.alloc, hx] using hn)

end VanillaBPlusTree

end NvmTree
