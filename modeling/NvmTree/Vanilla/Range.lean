/-
  NvmTree.Vanilla.Range — range search and its iterator.

  `range_search` asks the root where its lower key is and starts an iterator
  there; `next` reads one entry, or goes on to the right sibling.
  `InnerNode::locate_key` returns without setting its out-parameters when the
  key is below `key_[0]`, and `range_search` uses them all the same: such a call
  has no result (`rangeSearch_below`).

  Main result:
    * `run_rangeSearch` — after every sequence of calls, a range search that does
      not start below the root's `key_[0]` yields the stored pairs of the range in
      order, and then ends.
-/
import NvmTree.Vanilla.Structure

namespace NvmTree

open RangeTree

variable {K V : Type*} [LinearOrder K]

/-! ## §1. The code. -/

/-- `getEntry`. -/
def LeafNode.getEntry (n : LeafNode K V) (i : Nat) : Option (K × V) :=
  if n.size ≤ i then none else n.entries[i]?

/-- `locate_key`: the leaf and the position, or an inner `none` when an inner node
returns before it has set them. -/
def Node.locateKey : Nat → Heap K V → BlkAddress → K → Option (Option (BlkAddress × Nat))
  | 0, _, _, _ => none
  | fuel + 1, h, a, k =>
      match h.cells a with
      | none => none
      | some (.leaf n) => some (some (n.selfRep, (n.searchKeyPosition k).2))
      | some (.inner n) =>
          let target_node_index := n.locateChildIndex k
          if target_node_index < 0 then some none
          else
            match n.slots[target_node_index.toNat]? with
            | none => none
            | some (_, c) => locateKey fuel h c k

/-- `VanillaBPlusTree::Iterator`.  `keyHigh` is `key_high_` while `upper_bound_`. -/
structure Iterator (K : Type*) where
  leafNodeRef : BlkAddress
  offset : Nat
  keyHigh : Option K
  deriving Repr, DecidableEq

namespace Iterator

/-- `key < key_high_ || key == key_high_`, when there is a bound. -/
def inBound (it : Iterator K) (key : K) : Bool :=
  match it.keyHigh with
  | none => true
  | some key_high => decide (key < key_high) || decide (key = key_high)

/-- `next`: the iterator after the call, and the pair if the call returned `true`.
The fuel bounds the moves to a right sibling. -/
def next (h : Heap K V) : Nat → Iterator K → Option (Iterator K × Option (K × V))
  | 0, _ => none
  | fuel + 1, it =>
      match h.cells it.leafNodeRef with
      | some (.leaf leaf_node) =>
          match leaf_node.getEntry it.offset with
          | some (key, val) =>
              let it := { it with offset := it.offset + 1 }
              some (it, if it.inBound key then some (key, val) else none)
          | none =>
              match leaf_node.rightSibling with
              | some right_sibling_rep =>
                  next h fuel { it with leafNodeRef := right_sibling_rep, offset := 0 }
              | none => some (it, none)
      | _ => none

/-- The pairs that calls of `next` yield until one returns `false`; `calls` bounds
their number, `moves` those to a sibling within one call. -/
def drain (h : Heap K V) (moves : Nat) : Nat → Iterator K → Option (List (K × V))
  | 0, _ => none
  | calls + 1, it =>
      match it.next h moves with
      | none => none
      | some (_, none) => some []
      | some (it, some e) => (drain h moves calls it).map (e :: ·)

end Iterator

/-- `range_search`.  `none` is a use of the unset `leaf_node_ref`. -/
def VanillaBPlusTree.rangeSearch (t : VanillaBPlusTree K V) (key_low key_high : K) :
    Option (Iterator K) :=
  match Node.locateKey t.depth t.heap t.root key_low with
  | some (some (leaf_node_ref, offset)) => some ⟨leaf_node_ref, offset, some key_high⟩
  | _ => none

/-! ## §2. The iterator, by the entries ahead of it. -/

namespace Iterator

variable {h : Heap K V} {it : Iterator K} {l : List (K × V)} {n : Nat}

/-- `l` are the entries from the iterator's position on, over at most `n` further
leaves. -/
def Ahead (h : Heap K V) (n : Nat) (it : Iterator K) (l : List (K × V)) : Prop :=
  ∃ ys es next, SiblingChain h.store (it.leafNodeRef :: ys)
    ∧ h.store it.leafNodeRef = some (.leaf es next)
    ∧ l = es.drop it.offset ++ entriesOf h.store ys ∧ ys.length ≤ n

omit [LinearOrder K] in
theorem getEntry_eq (leaf : LeafNode K V) (i : Nat) : leaf.getEntry i = (leaf.entries.drop i).head? := by
  unfold LeafNode.getEntry LeafNode.size
  split
  · rename_i hle
    rw [List.drop_eq_nil_of_le hle]
    rfl
  · rw [List.head?_drop]

/-- **One call of `next`**: nothing ahead ends the scan, and otherwise the first
entry ahead is read. -/
theorem next_spec : ∀ {n fuel : Nat} {it : Iterator K} {l : List (K × V)}, n < fuel →
    Ahead h n it l →
    (l = [] → ∃ it', it.next h fuel = some (it', none))
      ∧ ∀ e rest, l = e :: rest → ∃ it', it'.keyHigh = it.keyHigh ∧ Ahead h n it' rest
        ∧ it.next h fuel = some (it', if it.inBound e.1 then some e else none) := by
  intro n
  induction n with
  | zero =>
      rintro (_ | fuel) it l hfuel ⟨ys, es, next, hchain, hE, rfl, hn⟩
      · omega
      obtain ⟨leaf, hcell, hes, hnext⟩ := Heap.store_leaf hE
      have hys : ys = [] := List.length_eq_zero_iff.1 (by omega)
      subst hys
      obtain ⟨es', hE'⟩ := hchain
      rw [hE] at hE'
      cases hE'
      rw [show entriesOf h.store ([] : List BlkAddress) = [] from rfl, List.append_nil]
      constructor
      · intro hnil
        refine ⟨it, ?_⟩
        simp only [Iterator.next, hcell, getEntry_eq, hes, hnil, hnext, List.head?_nil]
      · intro e rest hcons
        refine ⟨{ it with offset := it.offset + 1 }, rfl, ⟨[], es, none, ⟨es, hE⟩, hE, ?_, le_rfl⟩,
          ?_⟩
        · rw [show entriesOf h.store ([] : List BlkAddress) = [] from rfl, List.append_nil,
            ← List.drop_drop, hcons, List.drop_one, List.tail_cons]
        · simp only [Iterator.next, hcell, getEntry_eq, hes, hcons, List.head?_cons]
          rfl
  | succ n ih =>
      rintro (_ | fuel) it l hfuel ⟨ys, es, next, hchain, hE, rfl, hn⟩
      · omega
      obtain ⟨leaf, hcell, hes, hnext⟩ := Heap.store_leaf hE
      cases hd : es.drop it.offset with
      | cons e rest =>
          refine ⟨fun hnil => by simp at hnil, fun e' rest' hcons => ?_⟩
          obtain ⟨rfl, rfl⟩ := List.cons.inj hcons
          refine ⟨{ it with offset := it.offset + 1 }, rfl, ⟨ys, es, next, hchain, hE, ?_, hn⟩, ?_⟩
          · rw [← List.drop_drop, hd, List.drop_one, List.tail_cons]
            rfl
          · simp only [Iterator.next, hcell, getEntry_eq, hes, hd, List.head?_cons]
            rfl
      | nil =>
          cases ys with
          | nil =>
              obtain ⟨es', hE'⟩ := hchain
              rw [hE] at hE'
              cases hE'
              refine ⟨fun _ => ⟨it, ?_⟩, fun e rest hcons => by simp [entriesOf] at hcons⟩
              simp only [Iterator.next, hcell, getEntry_eq, hes, hd, hnext, List.head?_nil]
          | cons b ys =>
              -- this leaf is used up: the call goes on at its sibling
              obtain ⟨⟨es', hE'⟩, hchain⟩ := hchain
              rw [hE] at hE'
              cases hE'
              have hstep : it.next h (fuel + 1)
                  = Iterator.next h fuel { it with leafNodeRef := b, offset := 0 } := by
                simp only [Iterator.next, hcell, getEntry_eq, hes, hd, hnext, List.head?_nil]
              have hb : ∃ esb nextb, h.store b = some (.leaf esb nextb) := by
                cases ys with
                | nil =>
                    obtain ⟨esb, hb⟩ := hchain
                    exact ⟨esb, _, hb⟩
                | cons c ys =>
                    obtain ⟨⟨esb, hb⟩, -⟩ := hchain
                    exact ⟨esb, _, hb⟩
              obtain ⟨esb, nextb, hb⟩ := hb
              have hahead : Ahead h n { it with leafNodeRef := b, offset := 0 }
                  (entriesOf h.store (b :: ys)) := by
                refine ⟨ys, esb, nextb, hchain, hb, entriesOf_cons ys hb, ?_⟩
                simp only [List.length_cons] at hn
                omega
              obtain ⟨ih1, ih2⟩ := ih (show n < fuel by omega) hahead
              rw [List.nil_append, hstep]
              refine ⟨ih1, fun e rest hcons => ?_⟩
              obtain ⟨it', h1, ⟨ys', es', next', h2, h3, h4, h5⟩, h6⟩ := ih2 e rest hcons
              exact ⟨it', h1, ⟨ys', es', next', h2, h3, h4, by omega⟩, h6⟩

/-- **A scan** yields the entries ahead up to the first one above the bound. -/
theorem drain_spec : ∀ {l : List (K × V)} {it : Iterator K} {moves calls : Nat},
    Ahead h n it l → n < moves → l.length < calls →
      it.drain h moves calls = some (l.takeWhile (fun e => it.inBound e.1)) := by
  intro l
  induction l with
  | nil =>
      rintro it moves (_ | calls) hahead hmoves hcalls
      · omega
      obtain ⟨it', hnext⟩ := (next_spec hmoves hahead).1 rfl
      simp [drain, hnext]
  | cons e l ih =>
      rintro it moves (_ | calls) hahead hmoves hcalls
      · omega
      obtain ⟨it', hhigh, hahead', hnext⟩ := (next_spec hmoves hahead).2 e l rfl
      have hbound : it'.inBound = it.inBound := by
        unfold inBound
        rw [hhigh]
      cases hb : it.inBound e.1 with
      | false => simp [drain, hnext, hb]
      | true =>
          have hrest := ih hahead' hmoves (show l.length < calls by simpa using hcalls)
          simp [drain, hnext, hb, hrest, hbound]

end Iterator

/-! ## §3. Where a range search starts. -/

section Locate

variable {h : Heap K V} {G : Plan K BlkAddress} {row : List (K × BlkAddress)} {depth : Nat}
  {capacity : Nat} {κ k : K}

/-- The iterator position of `k` in a leaf: what is before it is smaller. -/
theorem LeafNode.position_spec {n : LeafNode K V} (hs : SortedKeys n.entries) (k : K) :
    (∀ e ∈ n.entries.take (n.searchKeyPosition k).2, e.1 < k)
      ∧ ∀ e ∈ n.entries.drop (n.searchKeyPosition k).2, k ≤ e.1 := by
  obtain ⟨lts, mid, gts, he, h1, h2, h3, h4⟩ := hs.locate k
  rw [searchKeyPosition_eq he h1 h2 h3 h4, he, List.append_assoc, List.take_left', List.drop_left']
  · refine ⟨h1, fun e hm => ?_⟩
    rcases List.mem_append.1 hm with hm | hm
    · exact (h2 e hm).ge
    · exact (h3 e hm).le
  · rfl
  · rfl

/-- **`locate_key` from any node of a tree** that does not start above `k`, by
induction over the levels. -/
theorem locateKey_spec (ht : Tree h.store G row depth) (hok : h.Ok capacity)
    (he : Edge h.store G κ) :
    ∀ (fuel : Nat) {a : BlkAddress} {sp : Span K}, sp.level ≤ fuel → G a = some sp → sp.Has k →
      (sp.level = 1 ∨ κ ≤ k) →
      ∃ b sb n, Node.locateKey fuel h a k = some (some (b, (n.searchKeyPosition k).2))
        ∧ G b = some sb ∧ sb.level = 1 ∧ sb.Has k ∧ h.cells b = some (.leaf n) := by
  intro fuel
  induction fuel with
  | zero =>
      intro a sp hfuel hG
      have := ht.level_pos hG
      omega
  | succ fuel ih =>
      intro a sp hfuel hG hk hlow
      obtain ⟨n, hn, hE⟩ := Heap.cell_of_plan ht hG
      cases n with
      | leaf n =>
          have hrep : n.selfRep = a := hok.selfRep hn
          refine ⟨a, sp, n, ?_, hG, (ht.leafOk hG hE).level, hk, hn⟩
          simp only [Node.locateKey, hn, hrep]
      | inner n =>
          have hin := ht.innerOk hG hE
          have hκ : κ ≤ k := hlow.resolve_left (by have := hin.level; omega)
          rcases InnerNode.locateChildIndex_cases k hin.sorted with ⟨hidx, hbelow⟩ | ⟨xs, ki, c, ys,
            hslots, hidx, hki, hys⟩
          · -- the first key is where the span starts, or the key of the left edge
            exfalso
            obtain ⟨⟨k₀, c₀⟩, rest, hslots⟩ := List.exists_cons_of_ne_nil hin.covers.ne_nil
            have hlt : k < k₀ := hbelow (k₀, c₀) (by rw [hslots]; simp)
            rcases hin.head with hbot | ⟨k', c', rest', heq, hlo⟩
            · have hE' : h.store a = some (.inner ((k₀, c₀) :: rest)) := by
                rw [hE, Node.shape, hslots]
              rw [he _ _ _ _ _ hG hbot hE'] at hlt
              exact absurd hκ (not_le.2 hlt)
            · rw [hslots] at heq
              cases heq
              exact absurd hk.1 (by rw [hlo]; exact not_le.2 (key_lt_key.2 hlt))
          · have hE' : h.store a = some (.inner (xs ++ (ki, c) :: ys)) := by
              rw [hE, Node.shape, hslots]
            obtain ⟨sc, hc, hlc, hkc⟩ := ht.locate hG hE' hk (fun _ => hki) hys
            have hneg : ¬ n.locateChildIndex k < 0 := by rw [hidx]; omega
            have hpos : n.slots[(n.locateChildIndex k).toNat]? = some (ki, c) := by
              rw [hidx, hslots]; exact ListSplit.getElem?_at
            simp only [Node.locateKey, hn, hneg, if_false, hpos]
            exact ih (by omega) hc hkc (Or.inr hκ)

end Locate

/-- Cutting a sorted list at its first key above `hi`. -/
theorem mem_takeWhile_le {hi : K} (e : K × V) : ∀ {l : List (K × V)}, SortedKeys l →
    (e ∈ l.takeWhile (fun e => decide (e.1 ≤ hi)) ↔ e ∈ l ∧ e.1 ≤ hi)
  | [], _ => by simp
  | x :: l, hs => by
      rw [sortedKeys_cons] at hs
      by_cases hx : x.1 ≤ hi
      · have ih : e ∈ l.takeWhile (fun e => decide (e.1 ≤ hi)) ↔ _ := mem_takeWhile_le e hs.2
        simp only [List.takeWhile_cons, hx, decide_true, if_true, List.mem_cons, ih]
        constructor
        · rintro (rfl | h)
          · exact ⟨Or.inl rfl, hx⟩
          · exact ⟨Or.inr h.1, h.2⟩
        · rintro ⟨rfl | h, he⟩
          · exact Or.inl rfl
          · exact Or.inr ⟨h, he⟩
      · simp only [List.takeWhile_cons, hx, decide_false, List.mem_cons]
        refine ⟨fun h => by simp at h, ?_⟩
        rintro ⟨rfl | h, he⟩
        · exact absurd he hx
        · exact absurd ((hs.1 e h).le.trans he) hx

namespace VanillaBPlusTree

variable {capacity : Nat} {t : VanillaBPlusTree K V}

/-- A range search from `k` does not start below the root's `key_[0]`. -/
def NotBelow (t : VanillaBPlusTree K V) (k : K) : Prop :=
  ∀ k₀ c rest, t.heap.store t.root = some (.inner ((k₀, c) :: rest)) → k₀ ≤ k

/-- Below `key_[0]` of an inner root, `range_search` uses an unset reference. -/
theorem rangeSearch_below {k₀ : K} {c : BlkAddress} {rest : List (K × BlkAddress)} {lo hi : K}
    (hE : t.heap.store t.root = some (.inner ((k₀, c) :: rest)))
    (hs : SortedKeys ((k₀, c) :: rest)) (hlt : lo < k₀) : t.rangeSearch lo hi = none := by
  obtain ⟨n, hn, hslots⟩ := Heap.store_inner hE
  have hidx : n.locateChildIndex lo = -1 := by
    refine InnerNode.locateChildIndex_eq (hslots ▸ hs) (List.nil_append n.slots).symm (by simp)
      (fun s hm => ?_)
    · rw [hslots] at hm
      rcases List.mem_cons.1 hm with rfl | hm
      · exact hlt
      · exact hlt.trans ((sortedKeys_cons.1 hs).1 s hm)
  unfold rangeSearch
  cases hd : t.depth with
  | zero => rfl
  | succ d => simp [Node.locateKey, hn, hidx]

/-- What the calls of `next` yield for a range. -/
structure Yields (t : VanillaBPlusTree K V) (it : Iterator K) (lo hi : K) (l : List (K × V)) :
    Prop where
  /-- Enough calls come to the one that returns `false`. -/
  ends : ∃ bound, ∀ n, bound ≤ n → it.drain t.heap n n = some l
  sorted : SortedKeys l
  exact : ∀ k v, (k, v) ∈ l ↔ lo ≤ k ∧ k ≤ hi ∧ Contents t.heap.store t.root k v

/-- A range search in a tree that satisfies the invariant. -/
theorem Inv.rangeSearch {m : K → Option V} {G : Plan K BlkAddress} {κ : K}
    (h : t.Inv capacity m G κ) {lo hi : K} (hlow : t.NotBelow lo) :
    ∃ it l, t.rangeSearch lo hi = some it ∧ t.Yields it lo hi l := by
  -- the left edge starts at the root's first key
  have hκ : t.depth = 1 ∨ κ ≤ lo := by
    rcases h.tree.cases h.plan_root with ⟨es, next, -, hl⟩ | ⟨slots, hE, -⟩
    · exact Or.inl hl
    · obtain ⟨⟨k₀, c⟩, rest, rfl⟩ :=
        List.exists_cons_of_ne_nil (h.tree.innerOk h.plan_root hE).covers.ne_nil
      rw [← h.edge _ _ _ _ _ h.plan_root rfl hE]
      exact Or.inr (hlow k₀ c rest hE)
  obtain ⟨b, sb, n, hloc, hb, hl, hk, hn⟩ := locateKey_spec h.tree h.ok h.edge t.depth le_rfl
    h.plan_root ⟨bot_le, key_lt_top lo⟩ hκ
  have hE := Heap.store_eq hn
  obtain ⟨ys, hchain, hsort, hright, hmem⟩ := h.tree.scan_from hb hl hk
  obtain ⟨hbefore, hafter⟩ := LeafNode.position_spec (h.tree.leafOk hb hE).sorted lo
  set position := (n.searchKeyPosition lo).2 with hposition
  set ahead := n.entries.drop position ++ entriesOf t.heap.store ys with hahead
  have hcut : entriesOf t.heap.store (b :: ys) = n.entries.take position ++ ahead := by
    rw [entriesOf_cons ys hE, hahead, ← List.append_assoc, List.take_append_drop]
  rw [hcut] at hsort hmem
  have hsorted := (sortedKeys_append.1 hsort).2.1
  -- what is ahead is at or above the lower key: in this leaf by position, then by order
  have hge : ∀ e ∈ ahead, lo ≤ e.1 := by
    intro e he
    rcases List.mem_append.1 he with he | he
    · exact hafter e he
    · exact (hright e he).le
  refine ⟨⟨b, position, some hi⟩,
    ahead.takeWhile (fun e => (Iterator.mk b position (some hi)).inBound e.1), ?_, ⟨?_, ?_, ?_⟩⟩
  · simp [VanillaBPlusTree.rangeSearch, hloc, hposition]
  · refine ⟨ys.length + ahead.length + 1, fun fuel hfuel => ?_⟩
    exact Iterator.drain_spec ⟨ys, n.entries, n.rightSibling, hchain, hE, hahead, le_rfl⟩
      (by omega) (by omega)
  · exact hsorted.sublist (List.takeWhile_sublist _)
  · intro k v
    have hin : ∀ e : K × V, (Iterator.mk b position (some hi)).inBound e.1 = decide (e.1 ≤ hi) := by
      intro e
      simp [Iterator.inBound, le_iff_lt_or_eq]
    simp only [hin]
    rw [mem_takeWhile_le _ hsorted, h.tree.contents_iff]
    constructor
    · rintro ⟨hm, hhi⟩
      have hlo := hge _ hm
      exact ⟨hlo, hhi, (hmem k v hlo).1 (List.mem_append_right _ hm)⟩
    · rintro ⟨hlo, hhi, hv⟩
      refine ⟨?_, hhi⟩
      rcases List.mem_append.1 ((hmem k v hlo).2 hv) with hm | hm
      · exact absurd hlo (not_le.2 (hbefore _ hm))
      · exact hm

/-- **Range search is exact** after every sequence of calls, when it does not start
below the root's `key_[0]`. -/
theorem run_rangeSearch (hcap : 3 ≤ capacity) (cs : List (Call K V)) :
    ∃ t answers, (init : VanillaBPlusTree K V).run capacity cs = some (t, answers)
      ∧ ∀ lo hi, t.NotBelow lo → ∃ it l, t.rangeSearch lo hi = some it ∧ t.Yields it lo hi l := by
  cases isEmpty_or_nonempty K with
  | inl hK =>
      cases cs with
      | nil => exact ⟨init, [], rfl, fun lo => hK.elim lo⟩
      | cons c cs => cases c <;> exact hK.elim ‹K›
  | inr hK =>
      obtain ⟨κ⟩ := hK
      obtain ⟨t, answers, G, κ', hrun, hinv, -⟩ := run_inv hcap cs (init_inv κ)
      exact ⟨t, answers, hrun, fun lo hi hlow => hinv.rangeSearch hlow⟩

/-- Four insertions split the root of the smallest tree: `range_search(0, 10)`,
below every key, has no result although four keys are in the range. -/
theorem rangeSearch_below_three :
    ∃ t answers, (init : VanillaBPlusTree Nat Nat).run 3
        [.insert 1 10, .insert 2 20, .insert 3 30, .insert 4 40] = some (t, answers)
      ∧ t.rangeSearch 0 10 = none ∧ Contents t.heap.store t.root 1 10 := by
  refine ⟨_, _, rfl, rfl, 2, 0, [(1, 10)], some 1, ?_, rfl, by simp⟩
  exact @Reach.child _ _ _ _ _ 1 2 0 [(1, 0), (2, 1)] 1 Reach.root rfl (by simp)

/-- The same tree, from the smallest key on. -/
theorem run_rangeSearch_three :
    3 ≤ 3 ∧ ∃ t answers, (init : VanillaBPlusTree Nat Nat).run 3
        [.insert 1 10, .insert 2 20, .insert 3 30, .insert 4 40] = some (t, answers)
      ∧ t.NotBelow 1 ∧ ∃ it l, t.rangeSearch 1 10 = some it ∧ t.Yields it 1 10 l := by
  refine ⟨le_rfl, ?_⟩
  obtain ⟨t, answers, hrun, h⟩ := run_rangeSearch (show 3 ≤ 3 from le_rfl)
    ([.insert 1 10, .insert 2 20, .insert 3 30, .insert 4 40] : List (Call Nat Nat))
  have hlow : t.NotBelow 1 := by
    have hroot : t.heap.store t.root = some (.inner [(1, 0), (2, 1)]) := by
      cases hrun
      rfl
    intro k₀ c rest hE
    rw [hroot] at hE
    cases hE
    exact le_rfl
  exact ⟨t, answers, hrun, hlow, h 1 10 hlow⟩

end VanillaBPlusTree

end NvmTree
