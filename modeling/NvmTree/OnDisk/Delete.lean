/-
  NvmTree.OnDisk.Delete — deletion from the block store mirrors that from the heap.

  No address is allocated, so the renaming stays.  Of two children that are balanced
  one is the child the call below worked on and the other one is loaded; both are
  written, or one is written and the other one's block given back.

  Main results:
    * `rebalance_mirror` — one balancing step.
    * `delete_mirror` — `delete_key` from any node of a tree.
-/
import NvmTree.OnDisk.Insert
import NvmTree.Vanilla.Balance

namespace NvmTree

open RangeTree

variable {K V : Type*}

/-! ## §1. Addresses after balancing. -/

theorem mem_balanceEntries {β : Type*} {capacity : Nat} (hb : 2 ≤ underflowBound capacity)
    {l r : List (K × β)} {e : K × β}
    (he : e ∈ (balanceEntries capacity l r).1 ∨ e ∈ (balanceEntries capacity l r).2.1) :
    e ∈ l ∨ e ∈ r := by
  rcases balanceEntries_cases (Nat.zero_lt_of_lt hb) l r with
    ⟨e₀, e₁, rest, rfl, -, -, heq⟩ | ⟨init, e₀, rfl, -, -, -, heq⟩ | ⟨-, heq⟩ <;>
    rw [heq] at he <;> simp only [List.mem_append, List.mem_cons, List.not_mem_nil] at he ⊢ <;> grind

/-- Balancing moves no address out of the two nodes. -/
theorem Disk.balance_below {capacity : Nat} (hb : 2 ≤ underflowBound capacity)
    {nl nr l r : Node K V} {boundary : Option K}
    (heq : Disk.balance capacity nl nr = some (l, r, boundary)) {b : BlkAddress}
    (hl : nl.Below b) (hr : nr.Below b) :
    l.selfRep = nl.selfRep ∧ r.selfRep = nr.selfRep ∧ l.Below b ∧ r.Below b := by
  match nl, nr, heq with
  | .leaf nl, .leaf nr, heq =>
      cases heq
      rw [Node.below_leaf] at hl hr
      refine ⟨rfl, rfl, Node.below_leaf.2 ⟨hl.1, fun x hx => ?_⟩, Node.below_leaf.2 hr⟩
      have hsib : (if (balanceEntries capacity nl.entries nr.entries).2.2.isNone = true
          then nr.rightSibling else nl.rightSibling) = some x := hx
      by_cases hmerge : (balanceEntries capacity nl.entries nr.entries).2.2.isNone = true
      · rw [if_pos hmerge] at hsib
        exact hr.2 x hsib
      · rw [if_neg hmerge] at hsib
        exact hl.2 x hsib
  | .inner nl, .inner nr, heq =>
      cases heq
      rw [Node.below_inner] at hl hr
      have hslots : ∀ s, s ∈ (balanceEntries capacity nl.slots nr.slots).1
          ∨ s ∈ (balanceEntries capacity nl.slots nr.slots).2.1 → s.2 < b :=
        fun s hs => (mem_balanceEntries hb hs).elim (hl.2 s) (hr.2 s)
      exact ⟨rfl, rfl, Node.below_inner.2 ⟨hl.1, fun s hs => hslots s (Or.inl hs)⟩,
        Node.below_inner.2 ⟨hr.1, fun s hs => hslots s (Or.inr hs)⟩⟩

/-- `balance` on the objects is `balance` on what they hold. -/
theorem Node.balance_eq {capacity : Nat} {h : Heap K V} {lc rc : BlkAddress} {nl nr : Node K V}
    (hl : h.cells lc = some nl) (hr : h.cells rc = some nr) :
    Node.balance capacity h lc rc = (Disk.balance capacity nl nr).map
      (fun p => ((h.set lc p.1).set rc p.2.1, p.2.2)) := by
  unfold Node.balance
  rw [hl, hr]
  match nl, nr with
  | .leaf _, .leaf _ => rfl
  | .inner _, .inner _ => rfl
  | .leaf _, .inner _ => rfl
  | .inner _, .leaf _ => rfl

/-! ## §2. One balancing step. -/

section Delete

variable {capacity : Nat} {ρ : BlkAddress → BlkAddress} {h h' : Heap K V} {d d' : Disk K V}
  {opened : List BlkAddress} {a c lc rc : BlkAddress} {N L R C : Node K V}

/-- What a deletion at `a` leaves in the store; `N'` is the instance of `a`
afterwards. -/
structure DeleteMirrored (capacity : Nat) (ρ : BlkAddress → BlkAddress) (h' : Heap K V)
    (d d' : Disk K V) (opened : List BlkAddress) (a : BlkAddress) (N' : Node K V) : Prop where
  kept : ∀ x ∈ opened, d'.blocks (ρ x) = d.blocks (ρ x)
  loaded : Loaded ρ h' d' a N'
  mirror : Mirror capacity ρ h' d' opened

/-- **Two neighbours are balanced**, and their parent takes the boundary or drops the
slot. -/
theorem rebalance_mirror (hb : 2 ≤ underflowBound capacity) {n : InnerNode K} {b : Bool}
    {index : Nat} {kl kr : K} (hm : Mirror capacity ρ h d (lc :: rc :: opened)) (ha : a ∈ opened)
    (hn : h.cells a = some (.inner n)) (hL : Loaded ρ h d lc L) (hR : Loaded ρ h d rc R)
    (hlr : lc ≠ rc) (hopen : ∀ x ∈ opened, x ≠ lc ∧ x ≠ rc ∧ ∃ nx, h.cells x = some nx)
    (hleft : n.slots[index]? = some (kl, lc)) (hright : n.slots[index + 1]? = some (kr, rc))
    {deleted underflow : Bool}
    (heq : Node.rebalance capacity h a n index = some (h', deleted, underflow))
    (hok : h'.Ok capacity) :
    ∃ d' N', d.rebalance capacity (n.image ρ b) (index + 1) (ρ lc) (ρ rc) L R
        = some (d', N', deleted, underflow)
      ∧ DeleteMirrored capacity ρ h' d d' opened a N' := by
  obtain ⟨nl, bl, hnl, rfl, -⟩ := hL
  obtain ⟨nr, br, hnr, rfl, -⟩ := hR
  obtain ⟨hal, har, -⟩ := hopen a ha
  have hself : n.selfRep = a := hm.selfRep hn
  obtain ⟨hbself, hbslots⟩ := Node.below_inner.1 (hm.below hn)
  unfold Node.rebalance at heq
  unfold Disk.rebalance
  simp only [hleft, hright, Node.balance_eq hnl hnr] at heq
  rw [Disk.balance_image]
  match hbal : Disk.balance capacity nl nr with
  | none => simp [hbal] at heq
  | some (l, r, boundary) =>
      obtain ⟨hl, hr, hbl, hbr⟩ := Disk.balance_below hb hbal (hm.below hnl) (hm.below hnr)
      -- both children are changed in place first
      have hm₁ : Mirror capacity ρ ((h.set lc l).set rc r) d (lc :: rc :: opened) := by
        have hnr₁ : (h.set lc l).cells rc = some nr := by simpa [Heap.set, hlr.symm] using hnr
        exact (hm.set (by simp) hnl (hl.trans (hm.selfRep hnl)) hbl).set (by simp) hnr₁
          (hr.trans (hm.selfRep hnr)) hbr
      have hcell : ((h.set lc l).set rc r).cells a = some (.inner n) := by
        simpa [Heap.set, hal, har] using hn
      rw [hbal] at heq
      simp only [Option.map_some] at heq ⊢
      cases boundary with
      | some boundary =>
          cases heq
          have hbelow : (Node.inner (n.setBoundary (index + 1) boundary) : Node K V).Below
              h.next := by
            refine Node.below_inner.2 ⟨hbself, fun s hs => ?_⟩
            obtain ⟨s', hs', he⟩ := InnerNode.snd_setBoundary hs
            rw [← he]
            exact hbslots s' hs'
          have hm₂ := hm₁.set (n := .inner (n.setBoundary (index + 1) boundary)) (a := a)
            (by simp [ha]) hcell hself hbelow
          obtain ⟨hmirror, hkept⟩ := hm₂.closePair (L := l.image ρ true) (R := r.image ρ true)
            ⟨l, true, by simp [Heap.set, hal.symm, hlr], rfl, Or.inl rfl⟩
            ⟨r, true, by simp [Heap.set, har.symm], rfl, Or.inl rfl⟩ hlr hok
          refine ⟨_, _, rfl, fun x hx => ?_, ?_, hmirror⟩
          · obtain ⟨hxl, hxr, nx, hnx⟩ := hopen x hx
            by_cases hxa : x = a
            · exact hkept x (.inner (n.setBoundary (index + 1) boundary)) (by simp [Heap.set, hxa])
                hxl hxr
            · exact hkept x nx (by simpa [Heap.set, hxa, hxl, hxr] using hnx) hxl hxr
          · refine ⟨.inner (n.setBoundary (index + 1) boundary), true, by simp [Heap.set], ?_,
              Or.inl rfl⟩
            rw [InnerNode.setBoundary_image]
            rfl
      | none =>
          cases heq
          have hbelow : (Node.inner (n.removeChild (index + 1)) : Node K V).Below h.next :=
            Node.below_inner.2 ⟨hbself, fun s hs => hbslots s (List.mem_of_mem_eraseIdx hs)⟩
          have hL₁ : Loaded ρ ((h.set lc l).set rc r) d lc (l.image ρ true) :=
            ⟨l, true, by simp [Heap.set, hlr], rfl, Or.inl rfl⟩
          have hfits : ∀ n', ((h.set lc l).set rc r).cells lc = some n' → n'.size ≤ capacity := by
            intro n' hn'
            refine hok.size_le (a := lc) ?_
            simpa [Heap.set, Heap.free, hal.symm, hlr] using hn'
          have hm₂ := (hm₁.close hL₁ hfits).free (a := rc) (n := r) (by simp [Heap.set])
          have hcell₂ : (((h.set lc l).set rc r).free rc).cells a = some (.inner n) := by
            simpa [Heap.free, har] using hcell
          have hm₃ := hm₂.set (n := .inner (n.removeChild (index + 1))) ha hcell₂ hself hbelow
          refine ⟨_, .inner ((n.removeChild (index + 1)).image ρ true), ?_, fun x hx => ?_, ?_, hm₃⟩
          · simp only [InnerNode.removeChild_image, InnerNode.image_size]
          · obtain ⟨hxl, hxr, nx, hnx⟩ := hopen x hx
            have hnx₁ : ((h.set lc l).set rc r).cells x = some nx := by
              simpa [Heap.set, hxl, hxr] using hnx
            exact hm₁.close_kept hL₁ hnx₁ hxl
          · exact ⟨.inner (n.removeChild (index + 1)), true, by simp [Heap.set], rfl, Or.inl rfl⟩

/-- **The end of `delete_key`**: the neighbour of the child that under-flowed is
loaded, and the two are balanced. -/
theorem balanceChild_mirror (hb : 2 ≤ underflowBound capacity) {n : InnerNode K} {b : Bool}
    {child_index : Int} {ki : K} {nl nr : Node K V}
    (hp : Node.Balancing capacity h n (Node.leftChildIndex child_index) c lc rc nl nr)
    (hpos : n.slots[child_index.toNat]? = some (ki, c))
    (hm : Mirror capacity ρ h d (c :: opened)) (hC : Loaded ρ h d c C) (ha : a ∈ opened)
    (hn : h.cells a = some (.inner n))
    (hopen : ∀ x ∈ opened, x ≠ lc ∧ x ≠ rc ∧ ∃ nx, h.cells x = some nx) {deleted underflow : Bool}
    (heq : Node.rebalance capacity h a n (Node.leftChildIndex child_index)
      = some (h', deleted, underflow)) (hok : h'.Ok capacity) :
    ∃ d' N', d.balanceChild capacity (n.image ρ b) child_index (ρ c) C
        = some (d', N', deleted, underflow)
      ∧ DeleteMirrored capacity ρ h' d d' opened a N' := by
  obtain ⟨kl, kr, hleft, hright⟩ := hp.getElem?
  unfold Disk.balanceChild
  simp only [InnerNode.image_getElem?]
  by_cases hone : 1 ≤ child_index
  · have hindex : Node.leftChildIndex child_index = (child_index - 1).toNat := if_pos hone
    rw [hindex] at hleft hright heq
    obtain rfl : c = rc := by
      rw [show (child_index - 1).toNat + 1 = child_index.toNat by omega, hpos] at hright
      cases hright
      rfl
    have hlc : lc ∉ c :: opened := by
      simp only [List.mem_cons, not_or]
      exact ⟨hp.ne, fun hx => (hopen lc hx).1 rfl⟩
    obtain ⟨hget, hL⟩ := hm.get hp.left hlc
    simp only [if_pos hone, hleft, Option.map_some, Prod.map, id, hget]
    exact rebalance_mirror hb (hm.weaken (fun x hx => List.mem_cons_of_mem lc hx)) ha hn hL hC hp.ne
      hopen hleft hright heq hok
  · have hindex : Node.leftChildIndex child_index = child_index.toNat := if_neg hone
    rw [hindex] at hleft hright heq
    obtain rfl : c = lc := by
      rw [hpos] at hleft
      cases hleft
      rfl
    have hrc : rc ∉ c :: opened := by
      simp only [List.mem_cons, not_or]
      exact ⟨hp.ne.symm, fun hx => (hopen rc hx).2.1 rfl⟩
    obtain ⟨hget, hR⟩ := hm.get hp.right hrc
    simp only [if_neg hone, hright, Option.map_some, Prod.map, id, hget]
    refine rebalance_mirror hb (hm.weaken (fun x hx => ?_)) ha hn hC hR hp.ne hopen hleft hright heq
      hok
    simp only [List.mem_cons] at hx ⊢
    tauto

/-! ## §3. Deletion, level by level. -/

/-- Nothing was changed. -/
theorem DeleteMirrored.refl (hm : Mirror capacity ρ h d opened) (hN : Loaded ρ h d a N) :
    DeleteMirrored capacity ρ h d d opened a N :=
  ⟨fun _ _ => rfl, hN, hm⟩

/-- **The child is closed.** -/
theorem DeleteMirrored.closeChild (hD : DeleteMirrored capacity ρ h' d d' (c :: opened) c C)
    (hN : Loaded ρ h' d' a N) (ha : a ∈ opened)
    (hopen : ∀ x ∈ opened, x ≠ c ∧ ∃ nx, h'.cells x = some nx) (hok : h'.Ok capacity) :
    DeleteMirrored capacity ρ h' d (d'.close (ρ c) C) opened a N := by
  have hkept : ∀ x ∈ opened, (d'.close (ρ c) C).blocks (ρ x) = d'.blocks (ρ x) := by
    intro x hx
    obtain ⟨hxc, nx, hnx⟩ := hopen x hx
    exact hD.mirror.close_kept hD.loaded hnx hxc
  refine ⟨fun x hx => ?_, ?_, ?_⟩
  · rw [hkept x hx]
    exact hD.kept x (List.mem_cons_of_mem c hx)
  · exact hN.congr rfl hD.mirror.node_below (fun _ _ => rfl) (hkept a ha)
  · exact hD.mirror.close hD.loaded (fun _ hn => hok.size_le hn)

variable [LinearOrder K] {G : Plan K BlkAddress} {row : List (K × BlkAddress)} {depth : Nat}
  {κ k : K} {m : K → Option V}

theorem LeafNode.deleteKey_keeps (n : LeafNode K V) (capacity : Nat) (k : K) (u : Bool) :
    (n.deleteKey capacity k u).1.selfRep = n.selfRep
      ∧ (n.deleteKey capacity k u).1.rightSibling = n.rightSibling
      ∧ ((n.deleteKey capacity k u).2.1 = false → (n.deleteKey capacity k u).1 = n) := by
  unfold LeafNode.deleteKey
  rcases n.searchKeyPosition k with ⟨_ | _, position⟩
  · exact ⟨rfl, rfl, fun _ => rfl⟩
  · exact ⟨rfl, rfl, nofun⟩

/-- **Deletion at a leaf.** -/
theorem delete_leaf_mirror {n : LeafNode K V} (hn : h.cells a = some (.leaf n))
    (hm : Mirror capacity ρ h d opened) (ha : a ∈ opened) (hN : Loaded ρ h d a N) (fuel : Nat)
    {u deleted u' : Bool}
    (heq : Node.deleteKey capacity (fuel + 1) h a k u = some (h', deleted, u')) :
    ∃ d' N', Disk.deleteKey capacity (fuel + 1) d N k u = some (d', N', deleted, u')
      ∧ DeleteMirrored capacity ρ h' d d' opened a N' := by
  obtain ⟨n₁, b, hn₁, rfl, hb⟩ := id hN
  rw [hn] at hn₁
  cases hn₁
  obtain ⟨hself, hsib, hnot⟩ := n.deleteKey_keeps capacity k u
  have himage := n.deleteKey_image (ρ := ρ) (b := b) k capacity u
  simp only [Node.deleteKey, hn] at heq
  generalize n.deleteKey capacity k u = p at hself hsib hnot himage heq
  obtain ⟨n', del, u₁⟩ := p
  cases heq
  simp only at hself hsib hnot himage
  have hbelow := Node.below_leaf.1 (hm.below hn)
  have hm' : Mirror capacity ρ (h.set a (.leaf n')) d opened :=
    hm.set (n := .leaf n') ha hn (hself.trans (hm.selfRep hn))
      (Node.below_leaf.2 ⟨by rw [hself]; exact hbelow.1, by rw [hsib]; exact hbelow.2⟩)
  refine ⟨d, .leaf (n'.image ρ (b || del)), ?_, fun _ _ => rfl, ?_, hm'⟩
  · simp only [Disk.deleteKey, Node.image, himage]
  · cases del with
    | true => exact ⟨.leaf n', b || true, by simp [Heap.set], rfl, Or.inl (by simp)⟩
    | false =>
        rw [hnot rfl, Heap.set_self hn, Bool.or_false]
        exact hN

/-- **`delete_key`** on the store, from any node of a tree, by induction over the
levels. -/
theorem delete_mirror (hb : 2 ≤ underflowBound capacity)
    (hT : IsTree capacity h G row depth κ m) :
    ∀ (fuel : Nat) {opened : List BlkAddress} {a : BlkAddress} {N : Node K V} {sp : Span K}
      {h' : Heap K V} {u deleted u' : Bool}, sp.level ≤ fuel → G a = some sp → sp.Has k →
      Mirror capacity ρ h d opened → a ∈ opened → HeldAbove G sp.level opened →
      Loaded ρ h d a N → Node.deleteKey capacity fuel h a k u = some (h', deleted, u') →
      ∃ d' N', Disk.deleteKey capacity fuel d N k u = some (d', N', deleted, u')
        ∧ DeleteMirrored capacity ρ h' d d' opened a N' := by
  intro fuel
  induction fuel with
  | zero =>
      intro opened a N sp h' u deleted u' hfuel hG
      have := hT.tree.level_pos hG
      omega
  | succ fuel ih =>
      intro opened a N sp h' u deleted u' hfuel hG hk hm ha hopen hN heq
      obtain ⟨node, b, hn, rfl, -⟩ := id hN
      cases node with
      | leaf n => exact delete_leaf_mirror hn hm ha hN fuel heq
      | inner n =>
          have hE : h.store a = some (.inner n.slots) := Heap.store_eq hn
          obtain ⟨h₂, del₂, u₂, heq₂, hdel₂⟩ := delete_spec hb hT (fuel + 1) u hfuel hG hk
          rw [heq] at heq₂
          cases heq₂
          rw [Node.deleteKey] at heq
          rw [Node.image, Disk.deleteKey]
          simp only [hn, InnerNode.locateChildIndex_image] at heq ⊢
          rcases InnerNode.locateChildIndex_cases k (hT.tree.innerOk hG hE).sorted with
            ⟨hidx, -⟩ | ⟨xs, ki, c, ys, hslots, hidx, hki, hys⟩
          · have hneg : n.locateChildIndex k < 0 := by rw [hidx]; decide
            simp only [hneg, if_true] at heq ⊢
            cases heq
            exact ⟨_, _, rfl, DeleteMirrored.refl hm hN⟩
          · have hneg : ¬ n.locateChildIndex k < 0 := by rw [hidx]; omega
            have hpos : n.slots[(n.locateChildIndex k).toNat]? = some (ki, c) := by
              rw [hidx, hslots]
              exact ListSplit.getElem?_at
            have hE' : h.store a = some (.inner (xs ++ (ki, c) :: ys)) := by rw [hE, hslots]
            obtain ⟨sc, hc, hlc, hkc⟩ := hT.tree.locate hG hE' hk (fun _ => hki) hys
            obtain ⟨nc, hnc, -⟩ := Heap.cell_of_plan hT.tree hc
            have hcopen : c ∉ opened := hopen.not_mem hc (by omega)
            obtain ⟨hget, hNc⟩ := hm.get hnc hcopen
            obtain ⟨h₁, del, u₁, heq₁, hdel⟩ := delete_spec hb hT fuel u (by omega) hc hkc
            obtain ⟨d₁, C, hdisk, hD⟩ := ih (by omega) hc hkc
              (hm.weaken (fun x hx => List.mem_cons_of_mem c hx)) List.mem_cons_self
              (hopen.cons hc (by omega)) hNc heq₁
            -- the node itself and those above stay as they are meanwhile
            have hcell : h₁.cells a = some (.inner n) := (hdel.frame hG (by omega)).trans hn
            have hN₁ : Loaded ρ h₁ d₁ a (.inner (n.image ρ b)) :=
              hN.congr (hdel.frame hG (by omega)) hm.node_below (fun _ _ => rfl)
                (hD.kept a (List.mem_cons_of_mem c ha))
            have hlive : ∀ x ∈ opened, x ≠ c ∧ ∃ nx, h₁.cells x = some nx := by
              intro x hx
              obtain ⟨sx, hGx, hle⟩ := hopen x hx
              obtain ⟨nx, hnx, -⟩ := Heap.cell_of_plan hT.tree hGx
              exact ⟨fun he => hcopen (he ▸ hx), nx, (hdel.frame hGx (by omega)).trans hnx⟩
            have hok₁ : h₁.Ok capacity := by
              cases del with
              | false =>
                  rw [(hdel.same rfl).1]
                  exact hT.ok
              | true =>
                  obtain ⟨G₁, hT₁, -⟩ := hdel.tree rfl
                  exact hT₁.ok
            simp only [hneg, if_false, InnerNode.image_getElem?, hpos, Option.map_some, Prod.map,
              id, hget, heq₁, hdisk, InnerNode.image_size] at heq ⊢
            cases del with
            | false =>
                cases heq
                exact ⟨_, _, rfl, hD.closeChild hN₁ ha hlive hok₁⟩
            | true =>
                simp only [Bool.not_true, Bool.false_eq_true, if_false] at heq ⊢
                by_cases hstop : (!u₁ || decide (n.size < 2)) = true
                · rw [if_pos hstop] at heq ⊢
                  cases heq
                  exact ⟨_, _, rfl, hD.closeChild hN₁ ha hlive hok₁⟩
                · rw [if_neg hstop] at heq ⊢
                  obtain ⟨rfl, hwide⟩ : u₁ = true ∧ 2 ≤ n.slots.length := by
                    simp only [Bool.or_eq_true, Bool.not_eq_true', decide_eq_true_eq, not_or,
                      Bool.not_eq_false, not_lt] at hstop
                    exact hstop
                  obtain ⟨lc, rc, nl, nr, hp, hne⟩ := Node.balancing hG hn hslots hidx hlc hdel hwide
                  obtain rfl : deleted = true := hdel₂.found.trans hdel.found.symm
                  obtain ⟨G₂, hT₂, -⟩ := hdel₂.tree rfl
                  have hopen₁ : ∀ x ∈ opened, x ≠ lc ∧ x ≠ rc ∧ ∃ nx, h₁.cells x = some nx := by
                    intro x hx
                    obtain ⟨sx, hGx, hle⟩ := hopen x hx
                    obtain ⟨hl, hr⟩ := hne hGx hle
                    exact ⟨hl.symm, hr.symm, (hlive x hx).2⟩
                  obtain ⟨d₂, N₂, hdisk₂, hD₂⟩ := balanceChild_mirror (b := b) hb hp hpos
                    hD.mirror hD.loaded ha hcell hopen₁ heq hT₂.ok
                  refine ⟨d₂, N₂, hdisk₂, fun x hx => ?_, hD₂.loaded, hD₂.mirror⟩
                  rw [hD₂.kept x hx]
                  exact hD.kept x (List.mem_cons_of_mem c hx)

end Delete

end NvmTree
