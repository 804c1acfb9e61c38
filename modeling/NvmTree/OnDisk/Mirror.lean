/-
  NvmTree.OnDisk.Mirror — a block store that mirrors a heap.

  `ρ` takes the address of an object to the address of its block.  The store mirrors
  the heap when the allocated addresses are those of the objects, and the block of
  every object that no activation holds an instance of is the object's image.  An
  instance (`Loaded`) is the image of its object; it is marked modified unless its
  block is up to date.

  Main results:
    * `Mirror.get`, `Mirror.close`, `Mirror.set`, `Mirror.alloc_new`, `Mirror.free` —
      one access of the store next to one of the heap.
-/
import NvmTree.OnDisk.Rename
import NvmTree.Vanilla.Delete

namespace NvmTree

variable {K V : Type*}

/-! ## §1. The block store. -/

/-- The reference was that of the node, the node fits a block, and after the `close`
the block at its address is that of the node. -/
structure Close.Faithful (capacity : Nat) (c : Close K V) : Prop where
  address : c.address = c.node.selfRep
  fits : c.node.size ≤ capacity
  stored : c.stored = some c.node.serialize

namespace Disk

variable {d : Disk K V} {x y : BlkAddress} {N : Node K V}

theorem isAddressValid_iff : d.isAddressValid x = true ↔ ¬ d.alloc.Free x := by
  simp only [isAddressValid, Allocator.Free, Bool.and_eq_true, decide_eq_true_eq,
    Bool.not_eq_true', List.contains_eq_mem, decide_eq_false_iff_not, not_or, not_le]
  exact and_comm

theorem get_eq (hx : ¬ d.alloc.Free x) {b : Block K V} (hb : d.blocks x = some b) :
    d.get x = some b.deserialize := by
  simp [get, read, isAddressValid_iff.2 hx, hb]

@[simp]
theorem close_alloc (d : Disk K V) (x : BlkAddress) (N : Node K V) :
    (d.close x N).alloc = d.alloc := by
  unfold close write
  split
  · split <;> rfl
  · rfl

/-- Only the block of the node is written. -/
theorem close_blocks_of_ne (hne : y ≠ x) : (d.close x N).blocks y = d.blocks y := by
  unfold close write
  split
  · split
    · exact Function.update_of_ne hne _ _
    · rfl
  · rfl

/-- **After `close`** the block is that of the instance. -/
theorem close_blocks (hx : ¬ d.alloc.Free x)
    (h : N.modified = true ∨ d.blocks x = some N.serialize) :
    (d.close x N).blocks x = some N.serialize := by
  unfold close write
  rw [if_pos (isAddressValid_iff.2 hx)]
  split
  · exact Function.update_self ..
  · rename_i hmod
    exact h.resolve_left hmod

theorem closed_close (d : Disk K V) (x : BlkAddress) (N : Node K V) :
    (d.close x N).closed = ⟨x, N, (d.close x N).blocks x⟩ :: d.closed := by
  unfold close write
  split
  · split <;> rfl
  · rfl

variable (pick : List BlkAddress → List BlkAddress)

@[simp]
theorem allocate_blocks (d : Disk K V) : (d.allocate pick).blocks = d.blocks := rfl

@[simp]
theorem remove_blocks (d : Disk K V) (x : BlkAddress) : (d.remove x).blocks = d.blocks := rfl

end Disk

/-! ## §2. The mirror. -/

theorem Node.image_size {ρ : BlkAddress → BlkAddress} {b : Bool} (n : Node K V) :
    (n.image ρ b).size = n.size := by
  cases n with
  | leaf n => rfl
  | inner n => simp [Node.image, InnerNode.image, Node.size]

/-- All addresses a node mentions are below `b`. -/
def Node.Below (b : BlkAddress) (n : Node K V) : Prop := ∀ r ∈ n.selfRep :: n.refs, r < b

theorem Node.Below.image_congr {ρ ρ' : BlkAddress → BlkAddress} {b : BlkAddress} {n : Node K V}
    (h : n.Below b) (hρ : ∀ x < b, ρ' x = ρ x) (md : Bool) : n.image ρ' md = n.image ρ md :=
  Node.image_congr (hρ _ (h _ List.mem_cons_self))
    (fun r hr => hρ r (h r (List.mem_cons_of_mem _ hr)))

theorem Node.Below.mono {b b' : BlkAddress} {n : Node K V} (h : n.Below b) (hb : b ≤ b') :
    n.Below b' :=
  fun r hr => (h r hr).trans_le hb

/-- The store `d` mirrors the heap `h`, but for the blocks of the objects in
`opened`. -/
structure Mirror (capacity : Nat) (ρ : BlkAddress → BlkAddress) (h : Heap K V) (d : Disk K V)
    (opened : List BlkAddress) : Prop where
  selfRep : ∀ {x n}, h.cells x = some n → n.selfRep = x
  below : ∀ {x n}, h.cells x = some n → n.Below h.next
  inj : ∀ {x y n m}, h.cells x = some n → h.cells y = some m → ρ x = ρ y → x = y
  live : ∀ y, ¬ d.alloc.Free y ↔ ∃ x n, h.cells x = some n ∧ ρ x = y
  alloc : d.alloc.Ok
  stored : ∀ {x n}, h.cells x = some n → x ∉ opened →
    d.blocks (ρ x) = some (n.image ρ false).serialize
  faithful : ∀ c ∈ d.closed, c.Faithful capacity

/-- `N` is an instance of the object at `a`: its image, and marked modified if its
block may be out of date. -/
def Loaded (ρ : BlkAddress → BlkAddress) (h : Heap K V) (d : Disk K V) (a : BlkAddress)
    (N : Node K V) : Prop :=
  ∃ n b, h.cells a = some n ∧ N = n.image ρ b ∧ (b = true ∨ d.blocks (ρ a) = some N.serialize)

variable {capacity : Nat} {ρ ρ' : BlkAddress → BlkAddress} {h h' : Heap K V} {d d' : Disk K V}
  {opened opened' : List BlkAddress} {a : BlkAddress} {n : Node K V} {N : Node K V}

namespace Mirror

theorem lt_next (hm : Mirror capacity ρ h d opened) (hn : h.cells a = some n) : a < h.next := by
  have hself := hm.below hn n.selfRep List.mem_cons_self
  rwa [hm.selfRep hn] at hself

theorem not_free (hm : Mirror capacity ρ h d opened) (hn : h.cells a = some n) :
    ¬ d.alloc.Free (ρ a) :=
  (hm.live _).2 ⟨a, n, hn, rfl⟩

/-- More instances may be held. -/
theorem weaken (hm : Mirror capacity ρ h d opened) (hsub : ∀ x ∈ opened, x ∈ opened') :
    Mirror capacity ρ h d opened' :=
  { hm with stored := fun hn hx => hm.stored hn (fun hx' => hx (hsub _ hx')) }

/-- **`get`** of a node that no activation holds. -/
theorem get (hm : Mirror capacity ρ h d opened) (hn : h.cells a = some n) (ha : a ∉ opened) :
    d.get (ρ a) = some (n.image ρ false) ∧ Loaded ρ h d a (n.image ρ false) := by
  have hstored := hm.stored hn ha
  refine ⟨?_, n, false, hn, rfl, Or.inr hstored⟩
  rw [Disk.get_eq (hm.not_free hn) hstored, Node.deserialize_image]

/-- **`close`** of an instance. -/
theorem close (hm : Mirror capacity ρ h d (a :: opened)) (hN : Loaded ρ h d a N)
    (hfits : ∀ n, h.cells a = some n → n.size ≤ capacity) :
    Mirror capacity ρ h (d.close (ρ a) N) opened := by
  obtain ⟨n, b, hn, rfl, hb⟩ := hN
  have hlive := hm.not_free hn
  have hblock : (d.close (ρ a) (n.image ρ b)).blocks (ρ a) = some (n.image ρ b).serialize :=
    Disk.close_blocks hlive (by rwa [Node.image_modified])
  refine ⟨hm.selfRep, hm.below, hm.inj, ?_, ?_, fun {x m} hx hopen => ?_, fun c hc => ?_⟩
  · intro y
    rw [Disk.close_alloc]
    exact hm.live y
  · rw [Disk.close_alloc]
    exact hm.alloc
  · by_cases hxa : x = a
    · subst hxa
      rw [hn] at hx
      cases hx
      rw [hblock, Node.serialize_image]
    · rw [Disk.close_blocks_of_ne (fun he => hxa (hm.inj hx hn he))]
      exact hm.stored hx (by simp [hxa, hopen])
  · rw [Disk.closed_close] at hc
    rcases List.mem_cons.1 hc with rfl | hc
    · refine ⟨?_, ?_, hblock⟩
      · show ρ a = (n.image ρ b).selfRep
        rw [Node.image_selfRep, hm.selfRep hn]
      · show (n.image ρ b).size ≤ capacity
        rw [Node.image_size]
        exact hfits n hn
    · exact hm.faithful c hc

/-- An object that is held is **changed in place**. -/
theorem set (hm : Mirror capacity ρ h d opened) (ha : a ∈ opened) {n₀ : Node K V}
    (hn₀ : h.cells a = some n₀) (hself : n.selfRep = a) (hbelow : n.Below h.next) :
    Mirror capacity ρ (h.set a n) d opened := by
  -- the objects are where they were
  have hcell : ∀ {x m}, (h.set a n).cells x = some m →
      (x = a ∧ m = n) ∨ (x ≠ a ∧ h.cells x = some m) := by
    intro x m hx
    by_cases hxa : x = a
    · subst hxa
      exact Or.inl ⟨rfl, by simpa [Heap.set, eq_comm] using hx⟩
    · exact Or.inr ⟨hxa, by simpa [Heap.set, hxa] using hx⟩
  have hthere : ∀ {x m}, (h.set a n).cells x = some m → ∃ m', h.cells x = some m' := by
    intro x m hx
    rcases hcell hx with ⟨rfl, -⟩ | ⟨-, hx⟩
    · exact ⟨n₀, hn₀⟩
    · exact ⟨m, hx⟩
  refine ⟨fun {x m} hx => ?_, fun {x m} hx => ?_, fun {x y m m'} hx hy he => ?_, fun y => ?_,
    hm.alloc, fun {x m} hx hopen => ?_, hm.faithful⟩
  · rcases hcell hx with ⟨rfl, rfl⟩ | ⟨-, hx⟩
    · exact hself
    · exact hm.selfRep hx
  · rcases hcell hx with ⟨rfl, rfl⟩ | ⟨-, hx⟩
    · exact hbelow
    · exact hm.below hx
  · obtain ⟨_, hx⟩ := hthere hx
    obtain ⟨_, hy⟩ := hthere hy
    exact hm.inj hx hy he
  · rw [hm.live y]
    constructor
    · rintro ⟨x, m, hx, he⟩
      by_cases hxa : x = a
      · exact ⟨x, n, by simp [Heap.set, hxa], he⟩
      · exact ⟨x, m, by simpa [Heap.set, hxa] using hx, he⟩
    · rintro ⟨x, m, hx, he⟩
      obtain ⟨m', hx⟩ := hthere hx
      exact ⟨x, m', hx, he⟩
  · rcases hcell hx with ⟨rfl, -⟩ | ⟨-, hx⟩
    · exact absurd ha hopen
    · exact hm.stored hx hopen

/-- **`allocate`**, and a new object that is held. -/
theorem alloc_new {pick : List BlkAddress → List BlkAddress} (hpick : ∀ l, (pick l).Perm l)
    (hm : Mirror capacity ρ h d opened) (hself : n.selfRep = h.next)
    (hbelow : n.Below (h.next + 1)) :
    Mirror capacity (Function.update ρ h.next (d.next pick)) (h.alloc n) (d.allocate pick)
      (h.next :: opened) := by
  have hperm := hpick d.alloc.freed
  have hok := hm.alloc.perm hperm
  have hfree : d.alloc.Free (d.next pick) :=
    (Allocator.free_perm hperm _).1 (Allocator.free_next _)
  have hρ : ∀ x < h.next, Function.update ρ h.next (d.next pick) x = ρ x :=
    fun x hx => Function.update_of_ne (Nat.ne_of_lt hx) _ _
  have hcell : ∀ {x m}, (h.alloc n).cells x = some m →
      (x = h.next ∧ m = n) ∨ h.cells x = some m := by
    intro x m hx
    by_cases hxa : x = h.next
    · subst hxa
      exact Or.inl ⟨rfl, by simpa [Heap.alloc, eq_comm] using hx⟩
    · exact Or.inr (by simpa [Heap.alloc, hxa] using hx)
  -- the new address is none of those in use
  have hnew : ∀ {x m}, h.cells x = some m →
      Function.update ρ h.next (d.next pick) x ≠ d.next pick := by
    intro x m hx he
    rw [hρ x (hm.lt_next hx)] at he
    exact hm.not_free hx (he ▸ hfree)
  refine ⟨fun {x m} hx => ?_, fun {x m} hx => ?_, fun {x y m m'} hx hy he => ?_, fun y => ?_,
    hok.allocate, fun {x m} hx hopen => ?_, hm.faithful⟩
  · rcases hcell hx with ⟨rfl, rfl⟩ | hx
    · exact hself
    · exact hm.selfRep hx
  · rcases hcell hx with ⟨rfl, rfl⟩ | hx
    · exact hbelow
    · exact (hm.below hx).mono (Nat.le_succ _)
  · rcases hcell hx with ⟨rfl, -⟩ | hx₀
    · rcases hcell hy with ⟨rfl, -⟩ | hy₀
      · rfl
      · rw [Function.update_self] at he
        exact absurd he.symm (hnew hy₀)
    · rcases hcell hy with ⟨rfl, -⟩ | hy₀
      · rw [Function.update_self] at he
        exact absurd he (hnew hx₀)
      · rw [hρ x (hm.lt_next hx₀), hρ y (hm.lt_next hy₀)] at he
        exact hm.inj hx₀ hy₀ he
  · show ¬ (Allocator.allocate _).Free y ↔ _
    rw [hok.free_allocate, Allocator.free_perm hperm, not_and_or, not_ne_iff, hm.live y]
    constructor
    · rintro (⟨x, m, hx, he⟩ | he)
      · have hlt := hm.lt_next hx
        refine ⟨x, m, ?_, by rw [hρ x hlt, he]⟩
        simpa [Heap.alloc, Nat.ne_of_lt hlt] using hx
      · exact ⟨h.next, n, by simp [Heap.alloc], by rw [Function.update_self, he]; rfl⟩
    · rintro ⟨x, m, hx, he⟩
      rcases hcell hx with ⟨rfl, rfl⟩ | hx
      · exact Or.inr (by rw [← he, Function.update_self]; rfl)
      · exact Or.inl ⟨x, m, hx, by rw [← he, hρ x (hm.lt_next hx)]⟩
  · simp only [List.mem_cons, not_or] at hopen
    rcases hcell hx with ⟨rfl, -⟩ | hx
    · exact absurd rfl hopen.1
    · rw [hρ x (hm.lt_next hx), (hm.below hx).image_congr hρ]
      exact hm.stored hx hopen.2

/-- **`remove`** of an object that is held. -/
theorem free (hm : Mirror capacity ρ h d (a :: opened)) (hn : h.cells a = some n) :
    Mirror capacity ρ (h.free a) (d.remove (ρ a)) opened := by
  have hcell : ∀ {x m}, (h.free a).cells x = some m ↔ x ≠ a ∧ h.cells x = some m := by
    intro x m
    by_cases hxa : x = a
    · simp [Heap.free, hxa]
    · simp [Heap.free, hxa]
  refine ⟨fun hx => hm.selfRep (hcell.1 hx).2, fun hx => hm.below (hcell.1 hx).2,
    fun hx hy he => hm.inj (hcell.1 hx).2 (hcell.1 hy).2 he, fun y => ?_,
    hm.alloc.deallocate (hm.not_free hn), fun hx hopen => ?_, hm.faithful⟩
  · show ¬ (Allocator.deallocate _ _).Free y ↔ _
    rw [Allocator.free_deallocate (hm.not_free hn), not_or, hm.live y]
    constructor
    · rintro ⟨hy, x, m, hx, rfl⟩
      exact ⟨x, m, hcell.2 ⟨fun he => hy (by rw [he]), hx⟩, rfl⟩
    · rintro ⟨x, m, hx, rfl⟩
      obtain ⟨hxa, hx⟩ := hcell.1 hx
      exact ⟨fun he => hxa (hm.inj hx hn he), x, m, hx, rfl⟩
  · obtain ⟨hxa, hx⟩ := hcell.1 hx
    exact hm.stored hx (by simp [hxa, hopen])

end Mirror

/-- An instance outlives what does not touch its object and its block. -/
theorem Loaded.congr (hN : Loaded ρ h d a N) (hcell : h'.cells a = h.cells a)
    (hbelow : ∀ n, h.cells a = some n → n.selfRep = a ∧ n.Below h.next)
    (hρ : ∀ x < h.next, ρ' x = ρ x) (hblock : d'.blocks (ρ a) = d.blocks (ρ a)) :
    Loaded ρ' h' d' a N := by
  obtain ⟨n, b, hn, rfl, hb⟩ := hN
  obtain ⟨hself, hlt⟩ := hbelow n hn
  have hρa : ρ' a = ρ a := hρ a (by rw [← hself]; exact hlt _ List.mem_cons_self)
  refine ⟨n, b, hcell.trans hn, (hlt.image_congr hρ b).symm, ?_⟩
  rwa [hρa, hblock]

end NvmTree
