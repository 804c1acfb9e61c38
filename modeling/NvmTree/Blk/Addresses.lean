/-
  NvmTree.Blk.Addresses — which block addresses are live.

  `file_blk_accessor` and `nvme_blk_accessor` hand out addresses in the same way:
  a freed one if there is one, the next of `cursor_` otherwise.  `deallocate` has a
  branch that moves `cursor_` down, taken when `cursor_ == address - 1`; no address
  that was handed out is that large, so the branch is never taken for one.

  `is_address_valid` compares the signed 64-bit address with the unsigned 32-bit
  cursor, so EVERY negative address passes it.

  Main results:
    * `live_freed_partition` — for both accessors, over every history in which only
      live addresses are deallocated: live and freed addresses are disjoint and
      together are [0, cursor_), and `allocate` returns no live address.
    * `isAddressValid_iff` — an address is accepted iff it is live or negative.
    * `not_live_no_effect` / `null_address_accepted` — accesses outside the live
      addresses, without and with a negative address.
-/
import NvmTree.Blk.FileAccessor
import NvmTree.Blk.NvmeAccessor

namespace NvmTree.Blk

/-! ## §1. The allocator of either accessor. -/

/-- What an accessor does with addresses. -/
structure AddressCalls (A : Type*) where
  allocate : A → Nat → A × Int
  deallocate : A → Int → A
  freedBlkAddresses : A → List Int
  cursor : A → Nat

def FileBlkAccessor.addressCalls (D : Type*) : AddressCalls (FileBlkAccessor D) :=
  ⟨FileBlkAccessor.allocate, FileBlkAccessor.deallocate, FileBlkAccessor.freedBlkAddresses,
    FileBlkAccessor.cursor⟩

def NvmeBlkAccessor.addressCalls (D : Type*) : AddressCalls (NvmeBlkAccessor D) :=
  ⟨NvmeBlkAccessor.allocate, NvmeBlkAccessor.deallocate, NvmeBlkAccessor.freedBlkAddresses,
    NvmeBlkAccessor.cursor⟩

inductive AddressOp where
  | allocate (pick : Nat)
  | deallocate (address : Int)
  deriving Repr, DecidableEq

/-- The accessor, the addresses that are live, and how many were taken from
`cursor_` so far. -/
structure AddressState (A : Type*) where
  acc : A
  live : List Int
  taken : Nat

namespace AddressCalls

variable {A : Type*} (calls : AddressCalls A)

def step (s : AddressState A) : AddressOp → AddressState A
  | .allocate pick =>
      ⟨(calls.allocate s.acc pick).1, (calls.allocate s.acc pick).2 :: s.live,
        if calls.freedBlkAddresses s.acc = [] then s.taken + 1 else s.taken⟩
  | .deallocate address =>
      ⟨calls.deallocate s.acc address, s.live.filter (fun x => decide (x ≠ address)), s.taken⟩

def run (s : AddressState A) (ops : List AddressOp) : AddressState A := ops.foldl calls.step s

/-- Only live addresses are deallocated. -/
def Allowed : AddressState A → List AddressOp → Prop
  | _, [] => True
  | s, op :: ops => (∀ address, op = .deallocate address → address ∈ s.live)
      ∧ Allowed (calls.step s op) ops

/-- Live and freed addresses are disjoint and together are [0, `cursor_`). -/
structure Partition (s : AddressState A) : Prop where
  nodup : s.live.Nodup
  disjoint : ∀ a ∈ s.live, a ∉ calls.freedBlkAddresses s.acc
  cover : ∀ a, a ∈ s.live ∨ a ∈ calls.freedBlkAddresses s.acc ↔ 0 ≤ a ∧ a < calls.cursor s.acc

/-- What `allocate` and `deallocate` do while `cursor_` is below `2 ^ 32` and the
deallocated address below `cursor_`. -/
structure Lawful : Prop where
  fresh : ∀ a pick, calls.freedBlkAddresses a = [] →
    (calls.allocate a pick).2 = calls.cursor a
      ∧ calls.freedBlkAddresses (calls.allocate a pick).1 = []
      ∧ (calls.cursor a + 1 < 2 ^ 32 →
        calls.cursor (calls.allocate a pick).1 = calls.cursor a + 1)
  reuse : ∀ a pick, calls.freedBlkAddresses a ≠ [] →
    (calls.allocate a pick).2 ∈ calls.freedBlkAddresses a
      ∧ (∀ x, x ∈ calls.freedBlkAddresses (calls.allocate a pick).1
          ↔ x ∈ calls.freedBlkAddresses a ∧ x ≠ (calls.allocate a pick).2)
      ∧ calls.cursor (calls.allocate a pick).1 = calls.cursor a
  deallocate : ∀ a (address : Int), 0 ≤ address → address < calls.cursor a → calls.cursor a < 2 ^ 32 →
    (∀ x, x ∈ calls.freedBlkAddresses (calls.deallocate a address)
        ↔ x ∈ calls.freedBlkAddresses a ∨ x = address)
      ∧ calls.cursor (calls.deallocate a address) = calls.cursor a

end AddressCalls

section Lawful

variable {D : Type*}

theorem mem_filter_ne {l : List Int} {a x : Int} :
    x ∈ l.filter (fun y => decide (y ≠ a)) ↔ x ∈ l ∧ x ≠ a := by
  simp [List.mem_filter]

/-- Inserting into the set of freed addresses. -/
theorem mem_insert_iff {l : List Int} {a x : Int} :
    x ∈ (if a ∈ l then l else a :: l) ↔ x ∈ l ∨ x = a := by
  split
  · rename_i h
    constructor
    · exact Or.inl
    · rintro (hx | rfl)
      · exact hx
      · exact h
  · rw [List.mem_cons, or_comm]

theorem FileBlkAccessor.lawful : (FileBlkAccessor.addressCalls D).Lawful := by
  refine ⟨?_, ?_, ?_⟩
  · intro a pick hf
    change a.freedBlkAddresses = [] at hf
    simp only [FileBlkAccessor.addressCalls, FileBlkAccessor.allocate, dif_pos hf]
    exact ⟨trivial, hf, Nat.mod_eq_of_lt⟩
  · intro a pick hf
    change a.freedBlkAddresses ≠ [] at hf
    simp only [FileBlkAccessor.addressCalls, FileBlkAccessor.allocate, dif_neg hf]
    exact ⟨List.get_mem _ _, fun x => mem_filter_ne, trivial⟩
  · intro a address _ hlt _
    change address < (a.cursor : Int) at hlt
    -- `cursor_ == address - 1` says that the address is past the cursor
    have hne : ¬ (a.cursor : Int) = address - 1 := by omega
    simp only [FileBlkAccessor.addressCalls, FileBlkAccessor.deallocate, if_neg hne]
    refine ⟨fun x => ?_, ?_⟩
    · rw [← mem_insert_iff, apply_ite FileBlkAccessor.freedBlkAddresses]
    · split <;> rfl

theorem NvmeBlkAccessor.lawful : (NvmeBlkAccessor.addressCalls D).Lawful := by
  refine ⟨?_, ?_, ?_⟩
  · intro n pick hf
    change n.freedBlkAddresses = [] at hf
    simp only [NvmeBlkAccessor.addressCalls, NvmeBlkAccessor.allocate, dif_pos hf]
    exact ⟨trivial, hf, fun hlt => Nat.mod_eq_of_lt (by omega)⟩
  · intro n pick hf
    change n.freedBlkAddresses ≠ [] at hf
    simp only [NvmeBlkAccessor.addressCalls, NvmeBlkAccessor.allocate, dif_neg hf]
    exact ⟨List.get_mem _ _, fun x => mem_filter_ne, trivial⟩
  · intro n address hpos hlt hcur
    change address < (n.cursor : Int) at hlt
    change n.cursor < 2 ^ 32 at hcur
    -- for address 0 the conversion to unsigned gives `2 ^ 64 - 1`
    have hne : ¬ (n.cursor : Int) = (address - 1) % 2 ^ 64 := by omega
    simp only [NvmeBlkAccessor.addressCalls, NvmeBlkAccessor.deallocate, if_neg hne]
    refine ⟨fun x => ?_, ?_⟩
    · rw [← mem_insert_iff, apply_ite NvmeBlkAccessor.freedBlkAddresses]
    · split <;> rfl

end Lawful

/-! ## §2. Live and freed addresses. -/

namespace AddressCalls

variable {A : Type*} {calls : AddressCalls A} {s : AddressState A}

/-- Live and freed addresses partition [0, `cursor_`), and `cursor_` counts the
addresses taken from it. -/
structure Inv (calls : AddressCalls A) (s : AddressState A) : Prop extends calls.Partition s where
  cursor : calls.cursor s.acc = s.taken
  taken : s.taken < 2 ^ 32

theorem Inv.allocate (h : calls.Inv s) (hl : calls.Lawful) (pick : Nat)
    (ht : (calls.step s (.allocate pick)).taken < 2 ^ 32) :
    calls.Inv (calls.step s (.allocate pick)) := by
  have hcur := h.cursor
  by_cases hf : calls.freedBlkAddresses s.acc = []
  · simp only [step, if_pos hf] at ht
    obtain ⟨haddr, hfreed, hcursor⟩ := hl.fresh s.acc pick hf
    have hcursor := hcursor (by omega)
    have hlive : ∀ a, a ∈ s.live ↔ 0 ≤ a ∧ a < calls.cursor s.acc := by
      intro a
      rw [← h.cover a, hf]
      simp
    refine ⟨⟨?_, ?_, ?_⟩, ?_, ?_⟩
    · simp only [step]
      refine List.nodup_cons.2 ⟨fun hm => ?_, h.nodup⟩
      have := (hlive _).1 hm
      omega
    · intro a _
      simp only [step, hfreed]
      exact List.not_mem_nil
    · intro a
      simp only [step, hfreed, hcursor, haddr, List.mem_cons, List.not_mem_nil, or_false, hlive]
      omega
    · simp only [step, if_pos hf, hcursor]
      omega
    · simp only [step, if_pos hf]
      exact ht
  · obtain ⟨haddr, hfreed, hcursor⟩ := hl.reuse s.acc pick hf
    have hnew : (calls.allocate s.acc pick).2 ∉ s.live := fun hm => h.disjoint _ hm haddr
    refine ⟨⟨?_, ?_, ?_⟩, ?_, ?_⟩
    · exact List.nodup_cons.2 ⟨hnew, h.nodup⟩
    · intro a ha
      simp only [step, hfreed] at ha ⊢
      rintro ⟨hm, hne⟩
      exact h.disjoint a ((List.mem_cons.1 ha).resolve_left hne) hm
    · intro a
      have hcover := h.cover a
      simp only [step, hfreed, hcursor, List.mem_cons, ← hcover]
      by_cases ha : a = (calls.allocate s.acc pick).2
      · simp [ha, haddr]
      · simp [ha]
    · simp only [step, if_neg hf, hcursor]
      exact hcur
    · simp only [step, if_neg hf]
      exact h.taken

/-- A live address is freed; freeing one again changes nothing. -/
theorem Inv.deallocate (h : calls.Inv s) (hl : calls.Lawful) {address : Int}
    (ha : address ∈ s.live ∨ address ∈ calls.freedBlkAddresses s.acc) :
    calls.Inv (calls.step s (.deallocate address)) := by
  have hrange := (h.cover address).1 ha
  have hcur := h.cursor
  have htaken := h.taken
  obtain ⟨hfreed, hcursor⟩ := hl.deallocate s.acc address hrange.1 hrange.2 (by omega)
  refine ⟨⟨h.nodup.filter _, ?_, ?_⟩, hcursor.trans hcur, htaken⟩
  · intro a hm
    simp only [step, mem_filter_ne, hfreed] at hm ⊢
    rintro (hmf | rfl)
    · exact h.disjoint a hm.1 hmf
    · exact hm.2 rfl
  · intro a
    simp only [step, mem_filter_ne, hfreed, hcursor, ← h.cover a]
    by_cases hae : a = address
    · subst hae; simpa using ha
    · simp [hae]

theorem taken_le_run (ops : List AddressOp) :
    ∀ s : AddressState A, s.taken ≤ (calls.run s ops).taken := by
  induction ops with
  | nil => exact fun s => Nat.le_refl _
  | cons op ops ih =>
      intro s
      refine Nat.le_trans ?_ (ih (calls.step s op))
      cases op with
      | allocate pick => simp only [step]; split <;> omega
      | deallocate address => exact Nat.le_refl _

/-- **Every run keeps the partition.** -/
theorem run_inv (hl : calls.Lawful) (ops : List AddressOp) :
    ∀ {s : AddressState A}, calls.Inv s → calls.Allowed s ops →
      (calls.run s ops).taken < 2 ^ 32 → calls.Inv (calls.run s ops) := by
  induction ops with
  | nil => intro s h _ _; exact h
  | cons op ops ih =>
      intro s h hal ht
      have hstep : calls.Inv (calls.step s op) := by
        cases op with
        | allocate pick => exact h.allocate hl pick (Nat.lt_of_le_of_lt (taken_le_run ops _) ht)
        | deallocate address => exact h.deallocate hl (Or.inl (hal.1 address rfl))
      exact ih hstep hal.2 ht

/-- Neither the cursor nor a freed address gives a live one. -/
theorem Inv.allocate_not_live (h : calls.Inv s) (hl : calls.Lawful) (pick : Nat) :
    (calls.allocate s.acc pick).2 ∉ s.live := by
  intro hm
  by_cases hf : calls.freedBlkAddresses s.acc = []
  · have := ((h.cover _).1 (Or.inl hm)).2
    rw [(hl.fresh s.acc pick hf).1] at this
    exact absurd this (Int.lt_irrefl _)
  · exact h.disjoint _ hm (hl.reuse s.acc pick hf).1

/-- An accessor that has handed out nothing. -/
theorem inv_of_new {a : A} (hf : calls.freedBlkAddresses a = []) (hc : calls.cursor a = 0) :
    calls.Inv ⟨a, [], 0⟩ := by
  refine ⟨⟨List.nodup_nil, fun _ ha => absurd ha List.not_mem_nil, fun x => ?_⟩, hc, Nat.two_pow_pos 32⟩
  simp only [hf, hc, List.not_mem_nil, or_self, false_iff]
  omega

/-- Over every history that starts from `a` with nothing handed out, deallocates
only live addresses and takes fewer than `2 ^ 32` from `cursor_`: live and freed
addresses partition [0, `cursor_`), and the next `allocate` returns no live one. -/
def Safe (calls : AddressCalls A) (a : A) : Prop :=
  ∀ ops, calls.Allowed ⟨a, [], 0⟩ ops → (calls.run ⟨a, [], 0⟩ ops).taken < 2 ^ 32 →
    calls.Partition (calls.run ⟨a, [], 0⟩ ops)
      ∧ ∀ pick, (calls.allocate (calls.run ⟨a, [], 0⟩ ops).acc pick).2
          ∉ (calls.run ⟨a, [], 0⟩ ops).live

theorem Lawful.safe (hl : calls.Lawful) {a : A} (hf : calls.freedBlkAddresses a = [])
    (hc : calls.cursor a = 0) : calls.Safe a := by
  intro ops hal ht
  have h := run_inv hl ops (inv_of_new hf hc) hal ht
  exact ⟨h.toPartition, h.allocate_not_live hl⟩

end AddressCalls

/-- **The allocator never hands out a live address**, in either accessor. -/
theorem live_freed_partition {D : Type*} (capacity : Nat) (data : Int → D) :
    (FileBlkAccessor.addressCalls D).Safe (FileBlkAccessor.opened capacity data)
      ∧ (NvmeBlkAccessor.addressCalls D).Safe (NvmeBlkAccessor.opened capacity data) :=
  ⟨FileBlkAccessor.lawful.safe rfl rfl, NvmeBlkAccessor.lawful.safe rfl rfl⟩

/-! ## §3. Which addresses `file_blk_accessor` accepts. -/

section Validity

variable {D : Type*} {s : FileState D}

/-- The state of the accessor with the addresses that its caller has. -/
def FileState.addressState (s : FileState D) : AddressState (FileBlkAccessor D) :=
  ⟨s.acc, s.client.live, s.acc.cursor⟩

/-- The condition on the state before a call: `allocate` does not wrap `cursor_`
around, and `deallocate` gets an address that was handed out. -/
def FileState.Handed (s : FileState D) : FileOp D → Prop
  | .allocate _ => s.acc.freedBlkAddresses = [] → s.acc.cursor + 1 < 2 ^ 32
  | .deallocate a => a ∈ s.client.live ∨ a ∈ s.acc.freedBlkAddresses
  | _ => True

theorem FileBlkAccessor.pwrite_addresses (a : FileBlkAccessor D) (unit : CacheUnit D) :
    (a.pwrite unit).freedBlkAddresses = a.freedBlkAddresses
      ∧ (a.pwrite unit).cursor = a.cursor := by
  unfold FileBlkAccessor.pwrite
  split <;> exact ⟨rfl, rfl⟩

theorem FileBlkAccessor.read_addresses (a : FileBlkAccessor D) (address : Int) :
    (a.read address).1.freedBlkAddresses = a.freedBlkAddresses
      ∧ (a.read address).1.cursor = a.cursor := by
  unfold FileBlkAccessor.read
  split
  · split
    · exact ⟨rfl, rfl⟩
    · split
      · exact ⟨rfl, rfl⟩
      · simp only
        split
        · exact pwrite_addresses _ _
        · exact ⟨rfl, rfl⟩
  · exact ⟨rfl, rfl⟩

theorem FileBlkAccessor.write_addresses (a : FileBlkAccessor D) (address : Int) (buffer : D) :
    (a.write address buffer).1.freedBlkAddresses = a.freedBlkAddresses
      ∧ (a.write address buffer).1.cursor = a.cursor := by
  unfold FileBlkAccessor.write
  split
  · split
    · split
      · exact pwrite_addresses _ _
      · exact ⟨rfl, rfl⟩
    · exact ⟨rfl, rfl⟩
  · exact ⟨rfl, rfl⟩

abbrev FileState.AddressInv (s : FileState D) : Prop :=
  (FileBlkAccessor.addressCalls D).Inv s.addressState

/-- A call that keeps the addresses of the accessor and of the caller. -/
theorem FileState.AddressInv.frame (h : s.AddressInv) {acc : FileBlkAccessor D}
    (ha : acc.freedBlkAddresses = s.acc.freedBlkAddresses ∧ acc.cursor = s.acc.cursor)
    (last : Int → Option D) : (⟨acc, ⟨s.client.live, last⟩⟩ : FileState D).AddressInv := by
  obtain ⟨freed, cursor, cache, file, aborted⟩ := acc
  obtain ⟨hf, hc⟩ := ha
  simp only at hf hc
  subst hf hc
  exact ⟨⟨h.nodup, h.disjoint, h.cover⟩, rfl, h.taken⟩

/-- A call to the allocator, seen from the caller. -/
theorem AddressCalls.Inv.addressInv {t : AddressState (FileBlkAccessor D)}
    (h : (FileBlkAccessor.addressCalls D).Inv t) (last : Int → Option D) :
    (⟨t.acc, ⟨t.live, last⟩⟩ : FileState D).AddressInv :=
  ⟨⟨h.nodup, h.disjoint, h.cover⟩, rfl, Nat.lt_of_le_of_lt (Nat.le_of_eq h.cursor) h.taken⟩

theorem address_step_inv (h : s.AddressInv) {op : FileOp D} (hop : s.Handed op) :
    (s.step op).AddressInv := by
  cases op with
  | allocate pick =>
      refine (h.allocate FileBlkAccessor.lawful pick ?_).addressInv _
      have hcur := h.taken
      simp only [AddressCalls.step]
      split
      · rename_i hf
        exact hop hf
      · exact hcur
  | deallocate a => exact (h.deallocate FileBlkAccessor.lawful hop).addressInv _
  | read a => exact h.frame (s.acc.read_addresses a) s.client.last
  | write a d => exact h.frame (s.acc.write_addresses a d) _

theorem address_run_inv (ops : List (FileOp D)) :
    ∀ {s : FileState D}, s.AddressInv → FileState.Along FileState.Handed s ops →
      (s.run ops).AddressInv := by
  induction ops with
  | nil => intro s h _; exact h
  | cons op ops ih =>
      intro s h hops
      exact ih (address_step_inv h hops.1) hops.2

/-- **What `is_address_valid` accepts**: the live addresses, and EVERY negative one. -/
theorem isAddressValid_iff (h : s.AddressInv) (a : Int) :
    s.acc.isAddressValid a = true ↔ a ∈ s.client.live ∨ a < 0 := by
  have hcover : a ∈ s.client.live ∨ a ∈ s.acc.freedBlkAddresses ↔ 0 ≤ a ∧ a < s.acc.cursor :=
    h.cover a
  have hdisj : a ∈ s.client.live → a ∉ s.acc.freedBlkAddresses := h.disjoint a
  unfold FileBlkAccessor.isAddressValid
  rw [Bool.and_eq_true, decide_eq_true_eq, decide_eq_true_eq]
  constructor
  · rintro ⟨hlt, hnf⟩
    by_cases hneg : a < 0
    · exact Or.inr hneg
    · exact Or.inl ((hcover.2 ⟨Int.not_lt.1 hneg, hlt⟩).resolve_right hnf)
  · rintro (hl | hneg)
    · exact ⟨(hcover.1 (Or.inl hl)).2, hdisj hl⟩
    · refine ⟨Int.lt_of_lt_of_le hneg (Int.natCast_nonneg _), fun hf => ?_⟩
      exact absurd (hcover.1 (Or.inr hf)).1 (Int.not_le.2 hneg)

/-- What an access to `a` should do: `read` and `write` return 0 and leave buffer,
cache and file alone if `a` is not live, and `write` is accepted if it is. -/
def FileState.Guarded (s : FileState D) (a : Int) : Prop :=
  (a ∉ s.client.live →
    s.acc.read a = (s.acc, none) ∧ ∀ d, s.acc.write a d = (s.acc, false))
  ∧ (a ∈ s.client.live → ∀ d, (s.acc.write a d).2 = true)

/-- **An address that is not live has no effect, unless it is negative.** -/
theorem not_live_no_effect (capacity : Nat) (file : Int → D) (ops : List (FileOp D))
    (hops : FileState.Along FileState.Handed (FileState.opened capacity file) ops)
    (a : Int) (ha : 0 ≤ a) : ((FileState.opened capacity file).run ops).Guarded a := by
  have hopened : (FileState.opened capacity file).AddressInv :=
    (AddressCalls.inv_of_new (a := FileBlkAccessor.opened capacity file) rfl rfl).addressInv _
  have hvalid := isAddressValid_iff (address_run_inv ops hopened hops) a
  constructor
  · intro hnl
    have hf : ((FileState.opened capacity file).run ops).acc.isAddressValid a = false := by
      rw [Bool.eq_false_iff, Ne, hvalid, not_or]
      exact ⟨hnl, Int.not_lt.2 ha⟩
    exact ⟨by simp [FileBlkAccessor.read, hf], fun d => by simp [FileBlkAccessor.write, hf]⟩
  · intro hl d
    unfold FileBlkAccessor.write
    rw [if_pos (hvalid.2 (Or.inl hl))]
    split
    · split <;> rfl
    · rfl

/-- The freed address and the live one after two allocations and a deallocation. -/
theorem not_live_no_effect_freed :
    ((FileState.opened 1 (fun _ => 0)).run
        [.allocate 0, .allocate 0, .write 0 5, .deallocate 0]).Guarded 0
      ∧ ((FileState.opened 1 (fun _ => 0)).run
        [.allocate 0, .allocate 0, .write 0 5, .deallocate 0]).Guarded 1 := by
  have hops : FileState.Along FileState.Handed (FileState.opened 1 (fun _ => 0))
      [.allocate 0, .allocate 0, .write 0 5, .deallocate 0] :=
    ⟨fun _ => by decide, fun _ => by decide, trivial, Or.inl (by decide), trivial⟩
  exact ⟨not_live_no_effect 1 _ _ hops 0 (by decide), not_live_no_effect 1 _ _ hops 1 (by decide)⟩

/-- **The null address is accepted**: on a new accessor, with no address live,
`write(-1)` puts the block into the cache and `read(-1)` finds it there. -/
theorem null_address_accepted :
    ¬ (FileState.opened 1 (fun _ => 0)).Guarded (-1)
      ∧ ((FileState.opened 1 (fun _ => 0)).acc.write (-1) 7).2 = true
      ∧ ((FileState.opened 1 (fun _ => 0)).acc.write (-1) 7).1.cache.key = [⟨-1, true, 7⟩]
      ∧ (((FileState.opened 1 (fun _ => 0)).acc.write (-1) 7).1.read (-1)).2 = some 7 := by
  refine ⟨fun h => ?_, rfl, rfl, rfl⟩
  have hw := (h.1 List.not_mem_nil).2 7
  exact absurd (congrArg Prod.snd hw) (by decide)

end Validity

end NvmTree.Blk
