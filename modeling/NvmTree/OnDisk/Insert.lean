/-
  NvmTree.OnDisk.Insert — insertion into the block store mirrors that into the heap.

  The activations on the way down hold the instances of `opened`; each of them is on
  a higher level than the node that is worked on, so that its object and its block
  stay as they are until the call below returns.

  Main results:
    * `insert_mirror` — `insert_with_split_support` from any node of a tree.
-/
import NvmTree.OnDisk.Mirror

namespace NvmTree

open RangeTree

variable {K V : Type*}

/-! ## §1. Addresses in the nodes. -/

theorem Node.below_leaf {b : BlkAddress} {n : LeafNode K V} :
    (Node.leaf n).Below b ↔ n.selfRep < b ∧ ∀ r, n.rightSibling = some r → r < b := by
  simp [Node.Below, Node.selfRep, Node.refs]

theorem Node.below_inner {b : BlkAddress} {n : InnerNode K} :
    (Node.inner n : Node K V).Below b ↔ n.selfRep < b ∧ ∀ s ∈ n.slots, s.2 < b := by
  unfold Node.Below
  rw [List.forall_mem_cons]
  exact and_congr_right (fun _ => List.forall_mem_map)

namespace InnerNode

variable {n : InnerNode K} {s : K × BlkAddress}

theorem mem_insertInnerNode {r : BlkAddress} {b : K} {i : Nat}
    (hs : s ∈ (n.insertInnerNode r b i).slots) : s = (b, r) ∨ s ∈ n.slots :=
  List.eq_or_mem_of_mem_insertIdx hs

/-- Writing a key moves no child. -/
theorem snd_setBoundary {k : K} {i : Nat} (hs : s ∈ (n.setBoundary i k).slots) :
    ∃ s' ∈ n.slots, s'.2 = s.2 := by
  obtain ⟨j, hj⟩ := List.mem_iff_getElem?.1 hs
  simp only [setBoundary, List.getElem?_modify] at hj
  obtain ⟨s', hs', rfl⟩ := Option.map_eq_some_iff.1 hj
  refine ⟨s', List.mem_of_getElem? hs', ?_⟩
  split <;> rfl

/-- The halves of a split have the slots of the node and the new one. -/
theorem mem_splitInsert [LinearOrder K] {capacity position : Nat} {c r : BlkAddress} {b : K}
    (hs : s ∈ (n.splitInsert capacity position c b r).1.slots
      ∨ s ∈ (n.splitInsert capacity position c b r).2.slots) : s = (b, c) ∨ s ∈ n.slots := by
  have hleft : s ∈ n.slots.take (n.size - (n.size - capacity / 2)) → s ∈ n.slots :=
    List.mem_of_mem_take
  have hright : s ∈ n.slots.drop (capacity / 2) → s ∈ n.slots := List.mem_of_mem_drop
  unfold splitInsert at hs
  split at hs
  · rcases hs with hs | hs
    · exact (mem_insertInnerNode hs).imp_right hleft
    · exact Or.inr (hright hs)
  · rcases hs with hs | hs
    · exact Or.inr (hleft hs)
    · exact (mem_insertInnerNode hs).imp_right hright

theorem splitInsert_selfRep [LinearOrder K] (capacity position : Nat) (c r : BlkAddress) (b : K) :
    (n.splitInsert capacity position c b r).1.selfRep = n.selfRep
      ∧ (n.splitInsert capacity position c b r).2.selfRep = r := by
  unfold splitInsert
  split <;> exact ⟨rfl, rfl⟩

end InnerNode

/-! ## §2. A node and its new right sibling. -/

section Insert

variable {capacity : Nat} {pick : List BlkAddress → List BlkAddress}
  {ρ ρ' : BlkAddress → BlkAddress} {h h' : Heap K V} {d d' : Disk K V} {opened : List BlkAddress}
  {a c r : BlkAddress} {n l : Node K V} {N L R : Node K V}

namespace Mirror

/-- The other blocks stay. -/
theorem close_kept (hm : Mirror capacity ρ h d opened) (hN : Loaded ρ h d a N) {x : BlkAddress}
    {nx : Node K V} (hx : h.cells x = some nx) (hxa : x ≠ a) :
    (d.close (ρ a) N).blocks (ρ x) = d.blocks (ρ x) := by
  obtain ⟨m, -, hm', -⟩ := hN
  exact Disk.close_blocks_of_ne (fun he => hxa (hm.inj hx hm' he))

theorem node_below (hm : Mirror capacity ρ h d opened) :
    ∀ n, h.cells a = some n → n.selfRep = a ∧ n.Below h.next :=
  fun _ hn => ⟨hm.selfRep hn, hm.below hn⟩

/-- **Two neighbours are closed.** -/
theorem closePair (hm : Mirror capacity ρ h d (c :: r :: opened)) (hL : Loaded ρ h d c L)
    (hR : Loaded ρ h d r R) (hcr : c ≠ r) (hok : h.Ok capacity) :
    Mirror capacity ρ h ((d.close (ρ c) L).close (ρ r) R) opened
      ∧ ∀ x nx, h.cells x = some nx → x ≠ c → x ≠ r →
        ((d.close (ρ c) L).close (ρ r) R).blocks (ρ x) = d.blocks (ρ x) := by
  have hm₁ := hm.close hL (fun _ hn => hok.size_le hn)
  obtain ⟨nr, br, hr, -⟩ := id hR
  have hR₁ : Loaded ρ h (d.close (ρ c) L) r R :=
    hR.congr rfl hm.node_below (fun _ _ => rfl) (hm.close_kept hL hr hcr.symm)
  refine ⟨hm₁.close hR₁ (fun _ hn => hok.size_le hn), fun x nx hx hxc hxr => ?_⟩
  rw [hm₁.close_kept hR₁ hx hxr, hm.close_kept hL hx hxc]

/-- **A split**: the object at `a`, which is held, keeps `l`, and `n` is new. -/
theorem split (hpick : ∀ l, (pick l).Perm l) (hm : Mirror capacity ρ h d opened) (ha : a ∈ opened)
    {n₀ : Node K V} (hn₀ : h.cells a = some n₀) (hl : l.selfRep = a) (hn : n.selfRep = h.next)
    (hbl : l.Below (h.next + 1)) (hbn : n.Below (h.next + 1)) :
    Mirror capacity (Function.update ρ h.next (d.next pick)) ((h.set a l).alloc n)
      (d.allocate pick) (h.next :: opened) := by
  have hne : a ≠ h.next := Nat.ne_of_lt (hm.lt_next hn₀)
  have hcomm : (h.set a l).alloc n = (h.alloc n).set a l := by
    simp only [Heap.set, Heap.alloc, Heap.mk.injEq, and_true]
    exact Function.update_comm hne ..
  rw [hcomm]
  have hn₁ : (h.alloc n).cells a = some n₀ := by simpa [Heap.alloc, hne] using hn₀
  exact (hm.alloc_new hpick hn hbn).set (List.mem_cons_of_mem _ ha) hn₁ hl hbl

end Mirror

/-! ## §3. One level of the insertion. -/

/-- What an insertion at `a` leaves in the store: `N'` is the instance of `a`
afterwards, and `S` that of the new right node. -/
structure InsertMirrored (capacity : Nat) (ρ ρ' : BlkAddress → BlkAddress) (h h' : Heap K V)
    (d d' : Disk K V) (opened : List BlkAddress) (a : BlkAddress) (N' : Node K V)
    (s : Option (BlkAddress × K)) (S : Option (Node K V × K)) : Prop where
  grows : h.next ≤ h'.next
  lives : ∀ x n, h.cells x = some n → ∃ n', h'.cells x = some n'
  agree : ∀ x < h.next, ρ' x = ρ x
  kept : ∀ x ∈ opened, d'.blocks (ρ x) = d.blocks (ρ x)
  loaded : Loaded ρ' h' d' a N'
  mirror : Mirror capacity ρ' h' d' ((s.map Prod.fst).toList ++ opened)
  whole : s = none → S = none
  right : ∀ r b, s = some (r, b) → h.next ≤ r ∧ ∃ R, S = some (R, b) ∧ Loaded ρ' h' d' r R

/-- The object at `a` becomes `l`, and its instance the image of `l`. -/
theorem InsertMirrored.whole_node (hm : Mirror capacity ρ h d opened) (ha : a ∈ opened)
    {n₀ : Node K V} (hn₀ : h.cells a = some n₀) (hl : l.selfRep = a) (hbl : l.Below h.next) :
    InsertMirrored capacity ρ ρ h (h.set a l) d d opened a (l.image ρ true) none none := by
  refine ⟨le_rfl, fun x n hx => ?_, fun _ _ => rfl, fun _ _ => rfl,
    ⟨l, true, by simp [Heap.set], rfl, Or.inl rfl⟩, hm.set ha hn₀ hl hbl, fun _ => rfl, nofun⟩
  by_cases hxa : x = a
  · exact ⟨l, by simp [Heap.set, hxa]⟩
  · exact ⟨n, by simpa [Heap.set, hxa] using hx⟩

/-- The object at `a` becomes `l`, with `n` at its right. -/
theorem InsertMirrored.halves (hpick : ∀ l, (pick l).Perm l) (hm : Mirror capacity ρ h d opened)
    (ha : a ∈ opened) {n₀ : Node K V} (hn₀ : h.cells a = some n₀) (hl : l.selfRep = a)
    (hn : n.selfRep = h.next) (hbl : l.Below (h.next + 1)) (hbn : n.Below (h.next + 1)) (b : K) :
    InsertMirrored capacity ρ (Function.update ρ h.next (d.next pick)) h ((h.set a l).alloc n)
      d (d.allocate pick) opened a (l.image (Function.update ρ h.next (d.next pick)) true)
      (some (h.next, b)) (some (n.image (Function.update ρ h.next (d.next pick)) true, b)) := by
  have hlt := hm.lt_next hn₀
  have hne := Nat.ne_of_lt hlt
  refine ⟨Nat.le_succ _, fun x nx hx => ?_,
    fun x hx => Function.update_of_ne (Nat.ne_of_lt hx) _ _, fun _ _ => rfl,
    ⟨l, true, Heap.cells_left hne, rfl, Or.inl rfl⟩, hm.split hpick ha hn₀ hl hn hbl hbn, nofun, ?_⟩
  · by_cases hxa : x = a
    · exact ⟨l, by rw [hxa, Heap.cells_left hne]⟩
    · exact ⟨nx, by rwa [Heap.cells_other hxa (Nat.ne_of_lt (hm.lt_next hx))]⟩
  · rintro r b' hs
    cases hs
    exact ⟨le_rfl, _, rfl, n, true, Heap.cells_right, rfl, Or.inl rfl⟩

/-- The two halves of a child are closed after its parent has taken the slot in. -/
theorem InsertMirrored.closePair {s : Option (BlkAddress × K)} {S : Option (Node K V × K)}
    (hI : InsertMirrored capacity ρ ρ' h h' d d' (r :: c :: opened) a N s S)
    (hm : Mirror capacity ρ h d (r :: c :: opened)) (hL : Loaded ρ h d c L)
    (hR : Loaded ρ h d r R) (hcr : c ≠ r) (hok : h'.Ok capacity) (hc : h'.cells c = h.cells c)
    (hr : h'.cells r = h.cells r) (ha : a ∈ opened)
    (hopen : ∀ x ∈ opened, x ≠ c ∧ x ≠ r ∧ ∃ nx, h.cells x = some nx) :
    InsertMirrored capacity ρ ρ' h h' d ((d'.close L.selfRep L).close R.selfRep R) opened a N s
      S := by
  have hLself : L.selfRep = ρ' c := by
    obtain ⟨nl, bl, hnl, rfl, -⟩ := hL
    rw [Node.image_selfRep, hm.selfRep hnl, hI.agree c (hm.lt_next hnl)]
  have hRself : R.selfRep = ρ' r := by
    obtain ⟨nr, br, hnr, rfl, -⟩ := hR
    rw [Node.image_selfRep, hm.selfRep hnr, hI.agree r (hm.lt_next hnr)]
  have hL' := hL.congr hc hm.node_below hI.agree (hI.kept c (by simp))
  have hR' := hR.congr hr hm.node_below hI.agree (hI.kept r (by simp))
  have hm' : Mirror capacity ρ' h' d' (c :: r :: ((s.map Prod.fst).toList ++ opened)) := by
    refine hI.mirror.weaken (fun x hx => ?_)
    simp only [List.mem_append, List.mem_cons] at hx ⊢
    grind
  obtain ⟨hmirror, hkept⟩ := hm'.closePair hL' hR' hcr hok
  rw [hLself, hRself]
  refine ⟨hI.grows, hI.lives, hI.agree, fun x hx => ?_, ?_, hmirror, hI.whole, fun r' b' hs => ?_⟩
  · obtain ⟨hxc, hxr, nx, hnx⟩ := hopen x hx
    obtain ⟨nx', hnx'⟩ := hI.lives x nx hnx
    have hblock := hkept x nx' hnx' hxc hxr
    rw [hI.agree x (hm.lt_next hnx)] at hblock
    rw [hblock]
    exact hI.kept x (by simp [hx])
  · obtain ⟨hac, har, na, hna⟩ := hopen a ha
    obtain ⟨na', hna'⟩ := hI.lives a na hna
    exact hI.loaded.congr rfl hm'.node_below (fun _ _ => rfl) (hkept a na' hna' hac har)
  · obtain ⟨hle, R', rfl, hR''⟩ := hI.right r' b' hs
    obtain ⟨nr', br', hnr', -⟩ := id hR''
    obtain ⟨nl, -, hnl, -⟩ := hL
    obtain ⟨nr, -, hnr, -⟩ := hR
    refine ⟨hle, R', rfl, hR''.congr rfl hm'.node_below (fun _ _ => rfl) (hkept r' nr' hnr' ?_ ?_)⟩
    · exact Nat.ne_of_gt ((hm.lt_next hnl).trans_le hle)
    · exact Nat.ne_of_gt ((hm.lt_next hnr).trans_le hle)

section Compose

variable {C : Node K V} {ρ₁ : BlkAddress → BlkAddress} {h₁ : Heap K V} {d₁ : Disk K V}
  {s t : Option (BlkAddress × K)} {S T : Option (Node K V × K)}

/-- The node itself was changed before. -/
theorem InsertMirrored.of_set
    (hI : InsertMirrored capacity ρ ρ' (h.set a n) h' d d' opened a N s S) :
    InsertMirrored capacity ρ ρ' h h' d d' opened a N s S := by
  refine ⟨hI.grows, fun x nx hx => ?_, hI.agree, hI.kept, hI.loaded, hI.mirror, hI.whole, hI.right⟩
  by_cases hxa : x = a
  · exact hI.lives x n (by simp [Heap.set, hxa])
  · exact hI.lives x nx (by simpa [Heap.set, hxa] using hx)

/-- **The child is closed** when it was not split. -/
theorem InsertMirrored.closeChild
    (hI : InsertMirrored capacity ρ ρ' h h' d d' (c :: opened) c C none S)
    (hm : Mirror capacity ρ h d opened) (hc : h.cells c = some n) (hN : Loaded ρ' h' d' a N)
    (ha : a ∈ opened) (hopen : ∀ x ∈ opened, x ≠ c ∧ ∃ nx, h.cells x = some nx)
    (hok : h'.Ok capacity) :
    InsertMirrored capacity ρ ρ' h h' d (d'.close (ρ c) C) opened a N none none := by
  rw [← hI.agree c (hm.lt_next hc)]
  -- the blocks of the nodes above are none of the child's
  have hkept : ∀ x ∈ opened, (d'.close (ρ' c) C).blocks (ρ' x) = d'.blocks (ρ' x) := by
    intro x hx
    obtain ⟨hxc, nx, hnx⟩ := hopen x hx
    obtain ⟨nx', hnx'⟩ := hI.lives x nx hnx
    exact hI.mirror.close_kept hI.loaded hnx' hxc
  refine ⟨hI.grows, hI.lives, hI.agree, fun x hx => ?_, ?_, ?_, fun _ => rfl, nofun⟩
  · obtain ⟨-, nx, hnx⟩ := hopen x hx
    rw [← hI.agree x (hm.lt_next hnx), hkept x hx, hI.agree x (hm.lt_next hnx)]
    exact hI.kept x (List.mem_cons_of_mem c hx)
  · exact hN.congr rfl hI.mirror.node_below (fun _ _ => rfl) (hkept a ha)
  · exact hI.mirror.close hI.loaded (fun _ hn => hok.size_le hn)

/-- **The parent takes the right half in** after the call on the child. -/
theorem InsertMirrored.trans
    (hI : InsertMirrored capacity ρ ρ₁ h h₁ d d₁ (c :: opened) c C s S)
    (hm : Mirror capacity ρ h d opened) (hopen : ∀ x ∈ opened, ∃ nx, h.cells x = some nx)
    (hI' : InsertMirrored capacity ρ₁ ρ' h₁ h' d₁ d' opened a N t T) :
    InsertMirrored capacity ρ ρ' h h' d d' opened a N t T := by
  refine ⟨hI.grows.trans hI'.grows, fun x nx hx => ?_, fun x hx => ?_, fun x hx => ?_, hI'.loaded,
    hI'.mirror, hI'.whole, fun r b ht => ?_⟩
  · obtain ⟨nx', hnx'⟩ := hI.lives x nx hx
    exact hI'.lives x nx' hnx'
  · rw [hI'.agree x (hx.trans_le hI.grows), hI.agree x hx]
  · obtain ⟨nx, hnx⟩ := hopen x hx
    have hkept := hI'.kept x hx
    rw [hI.agree x (hm.lt_next hnx)] at hkept
    rw [hkept]
    exact hI.kept x (List.mem_cons_of_mem c hx)
  · obtain ⟨hle, hrest⟩ := hI'.right r b ht
    exact ⟨hI.grows.trans hle, hrest⟩

end Compose

variable [LinearOrder K] {G : Plan K BlkAddress} {row xs ys : List (K × BlkAddress)}
  {depth : Nat} {sp : Span K} {o : Option BlkAddress} {ka k κ₁ κ₂ : K} {v : V} {m : K → Option V}

/-- **Insertion at a leaf.** -/
theorem insert_leaf_mirror (hcap : 2 ≤ capacity) (hpick : ∀ l, (pick l).Perm l)
    (hpre : CanInsert capacity h G row depth a sp o xs ka ys m k κ₁ κ₂) {n : LeafNode K V}
    (hn : h.cells a = some (.leaf n)) (hm : Mirror capacity ρ h d opened) (ha : a ∈ opened)
    (hN : Loaded ρ h d a N) (fuel : Nat) {s : Option (BlkAddress × K)}
    (heq : Node.insertWithSplitSupport capacity (fuel + 1) h a k v = some (h', s)) :
    ∃ ρ' d' N' S, Disk.insertWithSplitSupport pick capacity (fuel + 1) d N k v = some (d', N', S)
      ∧ InsertMirrored capacity ρ ρ' h h' d d' opened a N' s S := by
  obtain ⟨n₁, b, hn₁, rfl, -⟩ := hN
  rw [hn] at hn₁
  cases hn₁
  have hself : n.selfRep = a := hm.selfRep hn
  have hbelow := Node.below_leaf.1 (hm.below hn)
  have hρ : ∀ x < h.next, Function.update ρ h.next (d.next pick) x = ρ x :=
    fun x hx => Function.update_of_ne (Nat.ne_of_lt hx) _ _
  have himage := LeafNode.insertWithSplitSupport_image
    (ρ := Function.update ρ h.next (d.next pick)) (b := b) n k capacity v h.next
  rw [Function.update_self, show n.image (Function.update ρ h.next (d.next pick)) b = n.image ρ b
    from Node.leaf.inj ((hm.below hn).image_congr hρ b)] at himage
  have hsort := (hpre.tree.leafOk hpre.plan (Heap.store_eq hn)).sorted
  simp only [Node.insertWithSplitSupport, hn] at heq
  rcases LeafNode.insertWithSplitSupport_cases k v hsort hcap (hpre.ok.size_le hn) h.next with
    ⟨hins, -⟩ | ⟨L, bk, w, R, hins, -, -, -, -, -⟩
  · rw [hins] at heq himage
    cases heq
    have hbl : (Node.leaf (n.withEntry k v)).Below h.next := Node.below_leaf.2 hbelow
    refine ⟨ρ, d, _, none, ?_, InsertMirrored.whole_node hm ha hn hself hbl⟩
    simp only [Disk.insertWithSplitSupport, Node.image, himage, Option.map_none]
    rw [show (n.withEntry k v).image (Function.update ρ h.next (d.next pick)) true
      = (n.withEntry k v).image ρ true from Node.leaf.inj (hbl.image_congr hρ true)]
  · rw [hins] at heq himage
    cases heq
    refine ⟨_, _, _, _, ?_, InsertMirrored.halves hpick hm ha hn
      (l := .leaf ⟨n.selfRep, some h.next, L, true⟩)
      (n := .leaf ⟨h.next, n.rightSibling, (bk, w) :: R, true⟩) hself rfl ?_ ?_ bk⟩
    · simp only [Disk.insertWithSplitSupport, Node.image, himage, Option.map_some]
    · refine Node.below_leaf.2 ⟨Nat.lt_succ_of_lt hbelow.1, fun r hr => ?_⟩
      cases hr
      exact Nat.lt_succ_self _
    · exact Node.below_leaf.2 ⟨Nat.lt_succ_self _, fun r hr => Nat.lt_succ_of_lt (hbelow.2 r hr)⟩

/-- **The right half of a child** gets its slot. -/
theorem addSplitChild_mirror (hpick : ∀ l, (pick l).Perm l) {n : InnerNode K} {b : Bool} {bk : K}
    {position : Nat} (hm : Mirror capacity ρ h d (r :: c :: opened)) (ha : a ∈ opened)
    (hn : h.cells a = some (.inner n)) (hL : Loaded ρ h d c L) (hR : Loaded ρ h d r R)
    (hcr : c ≠ r) (hopen : ∀ x ∈ opened, x ≠ c ∧ x ≠ r ∧ ∃ nx, h.cells x = some nx)
    {s : Option (BlkAddress × K)}
    (heq : Node.addSplitChild capacity h a n position r bk = some (h', s))
    (hok : h'.Ok capacity) :
    ∃ ρ' d' N' S, d.addSplitChild pick capacity (n.image ρ b) position L R bk = some (d', N', S)
      ∧ InsertMirrored capacity ρ ρ' h h' d d' opened a N' s S := by
  have ha' : a ∈ r :: c :: opened := by simp [ha]
  obtain ⟨hac, har, -⟩ := hopen a ha
  have hself : n.selfRep = a := hm.selfRep hn
  obtain ⟨hbself, hbslots⟩ := Node.below_inner.1 (hm.below hn)
  obtain ⟨nr, br, hnr, hReq, -⟩ := id hR
  obtain ⟨nl, -, hnl, -⟩ := id hL
  have hr : r < h.next := hm.lt_next hnr
  have hRself : R.selfRep = ρ r := by rw [hReq, Node.image_selfRep, hm.selfRep hnr]
  unfold Node.addSplitChild at heq
  unfold Disk.addSplitChild
  have hmark : (n.image ρ b).markModified = n.image ρ true := rfl
  simp only [hmark, InnerNode.image_size, hRself]
  by_cases hroom : n.size < capacity
  · rw [if_pos hroom] at heq ⊢
    cases heq
    have hbelow : (Node.inner (n.insertInnerNode r bk (position + 1)) : Node K V).Below h.next := by
      refine Node.below_inner.2 ⟨hbself, fun s hs => ?_⟩
      rcases InnerNode.mem_insertInnerNode hs with rfl | hs
      · exact hr
      · exact hbslots s hs
    refine ⟨ρ, _, _, none, rfl, ?_⟩
    rw [InnerNode.insertInnerNode_image, ← hRself]
    refine (InsertMirrored.whole_node hm ha' hn
      (l := .inner (n.insertInnerNode r bk (position + 1))) hself hbelow).closePair hm hL hR hcr hok
      ?_ ?_ ha hopen
    · exact Function.update_of_ne hac.symm _ _
    · exact Function.update_of_ne har.symm _ _
  · rw [if_neg hroom] at heq ⊢
    obtain ⟨hselfl, hselfr⟩ := n.splitInsert_selfRep capacity position r h.next bk
    have hslots : ∀ s, s ∈ (n.splitInsert capacity position r bk h.next).1.slots
        ∨ s ∈ (n.splitInsert capacity position r bk h.next).2.slots → s.2 < h.next + 1 := by
      intro s hs
      rcases InnerNode.mem_splitInsert hs with rfl | hs
      · exact Nat.lt_succ_of_lt hr
      · exact Nat.lt_succ_of_lt (hbslots s hs)
    -- the new address is `ρ' h.next`, and `ρ'` is `ρ` on all that the node mentions
    have hρ : ∀ x < h.next, Function.update ρ h.next (d.next pick) x = ρ x :=
      fun x hx => Function.update_of_ne (Nat.ne_of_lt hx) _ _
    have himage := n.splitInsert_image (ρ := Function.update ρ h.next (d.next pick)) (b := true)
      bk capacity position r h.next
    rw [Function.update_self, hρ r hr,
      show n.image (Function.update ρ h.next (d.next pick)) true = n.image ρ true
        from Node.inner.inj ((hm.below hn).image_congr hρ true)] at himage
    rw [himage]
    generalize n.splitInsert capacity position r bk h.next = p at hselfl hselfr hslots heq ⊢
    obtain ⟨l, right⟩ := p
    simp only at hselfl hselfr hslots heq ⊢
    cases hright : right.slots with
    | nil => simp [hright] at heq
    | cons s₀ rest =>
        simp only [hright] at heq
        cases heq
        have hl : (Node.inner l : Node K V).Below (h.next + 1) :=
          Node.below_inner.2 ⟨by rw [hselfl]; exact Nat.lt_succ_of_lt hbself,
            fun s hs => hslots s (Or.inl hs)⟩
        have hrt : (Node.inner right : Node K V).Below (h.next + 1) :=
          Node.below_inner.2 ⟨by rw [hselfr]; exact Nat.lt_succ_self _,
            fun s hs => hslots s (Or.inr hs)⟩
        refine ⟨Function.update ρ h.next (d.next pick), _, _, _, ?_,
          (InsertMirrored.halves hpick hm ha' hn (l := .inner l) (n := .inner right)
            (hselfl.trans hself) hselfr hl hrt s₀.1).closePair hm hL hR hcr hok ?_ ?_ ha hopen⟩
        · simp only [InnerNode.image, hright, List.map_cons, Prod.map, id, hRself, Node.image]
        · exact Heap.cells_other hac.symm (Nat.ne_of_lt (hm.lt_next hnl))
        · exact Heap.cells_other har.symm (Nat.ne_of_lt hr)

/-- Every node that is held is on the level of the current one or above. -/
def HeldAbove (G : Plan K BlkAddress) (level : Nat) (opened : List BlkAddress) : Prop :=
  ∀ x ∈ opened, ∃ sx, G x = some sx ∧ level ≤ sx.level

omit [LinearOrder K] in
/-- A node below the current one is not held. -/
theorem HeldAbove.not_mem {level : Nat} (hopen : HeldAbove G level opened) {sc : Span K}
    (hc : G c = some sc) (hl : sc.level < level) : c ∉ opened := by
  intro hmem
  obtain ⟨sx, hx, hle⟩ := hopen c hmem
  rw [hc] at hx
  cases hx
  omega

omit [LinearOrder K] in
theorem HeldAbove.cons {level : Nat} (hopen : HeldAbove G level opened) {sc : Span K}
    (hc : G c = some sc) (hl : sc.level ≤ level) : HeldAbove G sc.level (c :: opened) := by
  intro x hx
  rcases List.mem_cons.1 hx with rfl | hx
  · exact ⟨sc, hc, le_rfl⟩
  · obtain ⟨sx, hx, hle⟩ := hopen x hx
    exact ⟨sx, hx, hl.trans hle⟩

/-- The node is lowered for a key below its first one, and its instance with it. -/
theorem Mirror.lower (hm : Mirror capacity ρ h d opened) (ha : a ∈ opened) {n : InnerNode K}
    (hn : h.cells a = some (.inner n)) {b : Bool} (hN : Loaded ρ h d a (.inner (n.image ρ b)))
    (k : K) :
    ∃ b', (if (n.image ρ b).locateChildIndex k < 0 then (n.image ρ b).setFirstKey k
        else n.image ρ b)
        = (if n.locateChildIndex k < 0 then n.setFirstKey k else n).image ρ b'
      ∧ Mirror capacity ρ
        (h.set a (.inner (if n.locateChildIndex k < 0 then n.setFirstKey k else n))) d opened
      ∧ Loaded ρ (h.set a (.inner (if n.locateChildIndex k < 0 then n.setFirstKey k else n))) d a
        (.inner ((if n.locateChildIndex k < 0 then n.setFirstKey k else n).image ρ b')) := by
  rw [InnerNode.locateChildIndex_image]
  split
  · obtain ⟨hbself, hbslots⟩ := Node.below_inner.1 (hm.below hn)
    have hself : n.selfRep = a := hm.selfRep hn
    refine ⟨true, InnerNode.setFirstKey_image n k,
      hm.set (n := .inner (n.setFirstKey k)) ha hn hself ?_,
      .inner (n.setFirstKey k), true, by simp [Heap.set], rfl, Or.inl rfl⟩
    refine Node.below_inner.2 ⟨hbself, fun s hs => ?_⟩
    obtain ⟨s', hs', he⟩ := InnerNode.snd_setBoundary (k := k) (i := 0) hs
    rw [← he]
    exact hbslots s' hs'
  · rw [Heap.set_self hn]
    exact ⟨b, rfl, hm, hN⟩

/-- **`insert_with_split_support`** on the store, from any node of a tree, by
induction over the levels. -/
theorem insert_mirror (hcap : 2 ≤ capacity) (hpick : ∀ l, (pick l).Perm l) :
    ∀ (fuel : Nat) {h h' : Heap K V} {d : Disk K V} {ρ : BlkAddress → BlkAddress}
      {opened : List BlkAddress} {a : BlkAddress} {N : Node K V} {sp : Span K}
      {o : Option BlkAddress} {xs ys : List (K × BlkAddress)} {ka : K}
      {s : Option (BlkAddress × K)}, sp.level ≤ fuel →
      CanInsert capacity h G row depth a sp o xs ka ys m k κ₁ κ₂ →
      Mirror capacity ρ h d opened → a ∈ opened → HeldAbove G sp.level opened →
      Loaded ρ h d a N →
      Node.insertWithSplitSupport capacity fuel h a k v = some (h', s) →
      ∃ ρ' d' N' S, Disk.insertWithSplitSupport pick capacity fuel d N k v = some (d', N', S)
        ∧ InsertMirrored capacity ρ ρ' h h' d d' opened a N' s S := by
  intro fuel
  induction fuel with
  | zero =>
      intro h h' d ρ opened a N sp o xs ys ka s hfuel hpre
      have := hpre.tree.level_pos hpre.plan
      omega
  | succ fuel ih =>
      intro h h' d ρ opened a N sp o xs ys ka s hfuel hpre hm ha hopen hN heq
      obtain ⟨node, b, hn, rfl, -⟩ := id hN
      cases node with
      | leaf n => exact insert_leaf_mirror hcap hpick hpre hn hm ha hN fuel heq
      | inner n =>
          obtain ⟨n', xs', ki, c, ys', sc, hn', hslots, hidx, hlc, -, -, hchild⟩ := descend hpre hn
          obtain ⟨b', himage, hm₀, hN₀⟩ := hm.lower ha hn hN k
          rw [← hn'] at himage hm₀ hN₀
          have hpos : n'.slots[(max 0 (n.locateChildIndex k)).toNat]? = some (ki, c) := by
            rw [hidx, hslots]
            exact ListSplit.getElem?_at
          have hpos' : (n'.image ρ b').slots[(max 0 ((n.image ρ b).locateChildIndex k)).toNat]?
              = some (ki, ρ c) := by
            rw [InnerNode.image_getElem?, InnerNode.locateChildIndex_image, hpos]
            rfl
          -- the child is loaded and the call below runs on its instance
          obtain ⟨nc, hnc, -⟩ := Heap.cell_of_plan hchild.tree hchild.plan
          have hcopen : c ∉ opened := hopen.not_mem hchild.plan (by omega)
          obtain ⟨hget, hNc⟩ := hm₀.get hnc hcopen
          obtain ⟨h₂, s₂, heq₂, hins⟩ := insert_spec (v := v) hcap fuel (by omega) hchild
          obtain ⟨ρ₂, d₂, C, S₂, hdisk, hI⟩ := ih (by omega) hchild
            (hm₀.weaken (fun x hx => List.mem_cons_of_mem c hx)) List.mem_cons_self
            (hopen.cons hchild.plan (by omega)) hNc heq₂
          -- the node itself and those above stay as they are meanwhile
          have hcell : h₂.cells a = some (.inner n') := by
            rw [hins.frame hpre.plan (by omega)]
            exact Function.update_self ..
          have hN₂ : Loaded ρ₂ h₂ d₂ a (.inner (n'.image ρ b')) :=
            hN₀.congr (hins.frame hpre.plan (by omega)) hm₀.node_below hI.agree
              (hI.kept a (List.mem_cons_of_mem c ha))
          have hlive : ∀ x ∈ opened,
              x ≠ c ∧ ∃ nx, (h.set a (.inner n')).cells x = some nx := by
            intro x hx
            obtain ⟨sx, hGx, -⟩ := hopen x hx
            obtain ⟨nx, hnx, -⟩ := Heap.cell_of_plan hchild.tree hGx
            exact ⟨fun he => hcopen (he ▸ hx), nx, hnx⟩
          rw [Node.insertWithSplitSupport] at heq
          simp only [hn, ← hn', hpos, heq₂] at heq
          cases s₂ with
          | none =>
              cases heq
              rw [hI.whole rfl] at hdisk
              refine ⟨ρ₂, d₂.close (ρ c) C, .inner (n'.image ρ b'), none, ?_,
                (hI.closeChild hm₀ hnc hN₂ ha hlive hins.ok).of_set⟩
              rw [Node.image, Disk.insertWithSplitSupport]
              simp only [himage, hpos', hget, hdisk]
          | some p =>
              obtain ⟨r, bk⟩ := p
              obtain ⟨hle, R, rfl, hR⟩ := hI.right r bk rfl
              obtain ⟨h₃, t, hadd, hins₃⟩ := insert_inner hcap hpre hn fuel
                (fun hl hc => insert_spec (v := v) hcap fuel (by omega) hc)
              rw [Node.insertWithSplitSupport] at hadd
              simp only [hn, ← hn', hpos, heq₂] at hadd
              simp only [hadd] at heq
              cases heq
              have hopen₂ : ∀ x ∈ opened, x ≠ c ∧ x ≠ r ∧ ∃ nx, h₂.cells x = some nx := by
                intro x hx
                obtain ⟨hxc, nx, hnx⟩ := hlive x hx
                exact ⟨hxc, Nat.ne_of_lt ((hm₀.lt_next hnx).trans_le hle), hI.lives x nx hnx⟩
              obtain ⟨ρ₃, d₃, N₃, S₃, hdisk₃, hI₃⟩ := addSplitChild_mirror (b := b') hpick hI.mirror
                ha hcell hI.loaded hR (Nat.ne_of_lt ((hm₀.lt_next hnc).trans_le hle)) hopen₂ hadd
                hins₃.ok
              have hsame : n'.image ρ b' = n'.image ρ₂ b' :=
                (Node.inner.inj
                  ((hm₀.below (Function.update_self ..)).image_congr hI.agree b')).symm
              refine ⟨ρ₃, d₃, N₃, S₃, ?_,
                (hI.trans hm₀ (fun x hx => (hlive x hx).2) hI₃).of_set⟩
              rw [Node.image, Disk.insertWithSplitSupport]
              simp only [himage, hpos', hget, hdisk]
              rw [InnerNode.locateChildIndex_image, hsame]
              exact hdisk₃

end Insert

end NvmTree
