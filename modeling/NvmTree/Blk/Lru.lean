/-
  NvmTree.Blk.Lru — `blk_cache` is an LRU map, down to its data blocks.

  `NvmTree.Blk.Cache` lets a unit carry its data.  In the source it carries a
  pointer: `allocate_block` recycles a block from `free_blocks_` or gets a new one,
  a hit copies into the block of the unit, an evicted unit takes its block along
  and its owner gives the block back with `free_block`.  `BlockCache` has these
  blocks, and `contents` forgets them.

  Main results:
    * `Owned` — every block belongs to one unit, to `free_blocks_` or to the owner
      of an evicted unit, and to nobody else; all operations keep this.
    * `contents_write`, `contents_read`, `contents_invalidate` — with blocks or
      without, the operations do the same.
    * `run_isLruMap` — after any calls: which reads succeed and what they return,
      which writes evict, and that the victim is the least recently used unit.
-/
import NvmTree.Blk.Cache
import NvmTree.Lib.ListSplit
import Mathlib.Logic.Function.Basic

namespace NvmTree.Blk

/-! ## §1. The cache with its data blocks. -/

/-- The units point to blocks; `free_blocks_` is kept with its back in front. -/
structure BlockCache (D : Type*) where
  units : BlkCache Nat
  freeBlocks : List Nat
  /-- What the blocks hold. -/
  heap : Nat → D
  /-- `spdk_dma_malloc` has returned the blocks below. -/
  allocated : Nat

namespace BlockCache

variable {D : Type*}

def new (capacity : Nat) (heap : Nat → D) : BlockCache D := ⟨BlkCache.new capacity, [], heap, 0⟩

def allocateBlock (c : BlockCache D) : BlockCache D × Nat :=
  match c.freeBlocks with
  | [] => ({ c with allocated := c.allocated + 1 }, c.allocated)
  | block :: rest => ({ c with freeBlocks := rest }, block)

def freeBlock (c : BlockCache D) (block : Nat) : BlockCache D :=
  { c with freeBlocks := block :: c.freeBlocks }

def memcpy (c : BlockCache D) (block : Nat) (buffer : D) : BlockCache D :=
  { c with heap := Function.update c.heap block buffer }

/-- `write` returns the unit it evicted, if any. -/
def write (c : BlockCache D) (id : Int) (buffer : D) (dirty : Bool) :
    BlockCache D × Option (CacheUnit Nat) :=
  if c.units.isCached id then
    -- `unit = get(id)` is a copy, and shares its block with the unit in the list
    let c' := { c with units := c.units.get id }
    match c'.units.find id with
    | some unit => (c'.memcpy unit.data buffer, none)
    | none => (c', none)
  else
    let (c', block) := c.allocateBlock
    let units := c'.units.insertNewUnit ⟨id, dirty, block⟩
    let (units, evict) := if units.size > units.capacity then units.evictUnit else (units, none)
    ({ c' with units := units }.memcpy block buffer, evict)

/-- `read` returns the block on a hit. -/
def read (c : BlockCache D) (id : Int) : BlockCache D × Option D :=
  if c.units.isCached id then
    ({ c with units := c.units.get id }, (c.units.find id).map (fun unit => c.heap unit.data))
  else (c, none)

def invalidate (c : BlockCache D) (id : Int) : BlockCache D :=
  match c.units.find id with
  | some unit => { c.freeBlock unit.data with units := c.units.invalidate id }
  | none => { c with units := c.units.invalidate id }

end BlockCache

/-! ## §2. Forgetting the blocks. -/

namespace BlkCache

variable {D E : Type*}

/-- The same cache with other data. -/
def mapData (f : D → E) (c : BlkCache D) : BlkCache E :=
  ⟨c.capacity, c.size, c.cache, c.key.map (fun u => ⟨u.id, u.dirty, f u.data⟩)⟩

variable (f : D → E) (c : BlkCache D) (id : Int)

theorem mapData_isCached : (c.mapData f).isCached id = c.isCached id := rfl

theorem mapData_find :
    (c.mapData f).find id = (c.find id).map (fun u => ⟨u.id, u.dirty, f u.data⟩) := by
  unfold find mapData
  rw [List.find?_map]
  rfl

theorem mapData_get : (c.mapData f).get id = (c.get id).mapData f := by
  unfold get
  rw [mapData_find]
  cases c.find id with
  | none => rfl
  | some u =>
      simp only [Option.map_some, mapData, List.map_cons]
      congr 2
      rw [List.eraseP_map]
      rfl

theorem mapData_insertNewUnit (u : CacheUnit D) :
    (c.mapData f).insertNewUnit ⟨u.id, u.dirty, f u.data⟩ = (c.insertNewUnit u).mapData f := rfl

theorem mapData_evictUnit :
    (c.mapData f).evictUnit
      = (c.evictUnit.1.mapData f,
          c.evictUnit.2.map (fun u => ⟨u.id, u.dirty, f u.data⟩)) := by
  unfold evictUnit
  simp only [mapData, List.getLast?_map]
  cases c.key.getLast? with
  | none => rfl
  | some u => simp

theorem mapData_invalidate : (c.mapData f).invalidate id = (c.invalidate id).mapData f := by
  unfold invalidate
  rw [mapData_isCached]
  split
  · simp only [mapData, List.eraseP_map]
    rfl
  · rfl

theorem mapData_write_miss (hc : c.isCached id = false) (d : D) (dirty : Bool) :
    (c.mapData f).write id (f d) dirty
      = ((c.write id d dirty).1.mapData f,
          (c.write id d dirty).2.map (fun u => ⟨u.id, u.dirty, f u.data⟩)) := by
  rw [write_miss_eq _ _ hc, write_miss_eq _ _ ((c.mapData_isCached f id).trans hc),
    mapData_insertNewUnit f c ⟨id, dirty, d⟩]
  show (if c.capacity < c.size + 1 then _ else _) = _
  split
  · exact mapData_evictUnit f _
  · rfl

variable {c id}

/-- The unit of `id` is taken out. -/
theorem invalidate_key_perm {u : CacheUnit D} (hu : c.find id = some u) :
    (u :: c.key.eraseP (fun w => decide (w.id = id))).Perm c.key := by
  have hp := get_key_perm c id
  unfold get at hp
  rwa [hu] at hp

theorem Coherent.invalidate (h : c.Coherent) (id : Int) : (c.invalidate id).Coherent := by
  unfold BlkCache.invalidate
  split
  · rename_i hc
    obtain ⟨u, hu⟩ := h.isCached_iff.1 hc
    have hp := invalidate_key_perm hu
    have hids := hp.map CacheUnit.id
    rw [List.map_cons, find_some_id hu] at hids
    have hlen := hp.length_eq
    have hsize := h.size_eq
    have hle := h.size_le
    rw [List.length_cons] at hlen
    refine ⟨(List.nodup_cons.1 (hids.nodup_iff.2 h.nodup)).2, ?_, ?_, ?_⟩
    · have := (h.perm.trans hids.symm).erase id
      rwa [List.erase_cons_head] at this
    · show c.size - 1 = (c.key.eraseP _).length
      omega
    · show c.size - 1 ≤ c.capacity
      omega
  · exact h

/-- `invalidate` forgets the unit of `id` and no other. -/
theorem Coherent.find_invalidate (h : c.Coherent) (id x : Int) :
    (c.invalidate id).find x = if x = id then none else c.find x := by
  have hcoh := h.invalidate id
  cases hu : c.find id with
  | none =>
      have hsame : c.invalidate id = c := by
        unfold BlkCache.invalidate
        simp [isCached_of_find_none h hu]
      rw [hsame]
      split
      · rename_i hx; rw [hx, hu]
      · rfl
  | some u =>
      have hp := invalidate_key_perm hu
      have hkey : (c.invalidate id).key = c.key.eraseP (fun w => decide (w.id = id)) := by
        unfold BlkCache.invalidate
        rw [if_pos (h.isCached_iff.2 ⟨u, hu⟩)]
      have hrest := (List.nodup_cons.1 ((hp.map CacheUnit.id).nodup_iff.2 h.nodup)).1
      rw [find_some_id hu] at hrest
      apply Option.ext
      intro w
      rw [hcoh.find_eq_iff, hkey]
      split
      · rename_i hx
        refine ⟨fun hw => ?_, fun hw => nomatch hw⟩
        exact absurd (List.mem_map_of_mem (f := CacheUnit.id) hw.1) (by rw [hw.2, hx]; exact hrest)
      · rename_i hx
        rw [h.find_eq_iff, ← hp.mem_iff, List.mem_cons]
        refine and_congr_left fun hw => ⟨Or.inr, fun hm => hm.resolve_left ?_⟩
        rintro rfl
        exact hx (hw.symm.trans (find_some_id hu))

@[simp] theorem invalidate_capacity : (c.invalidate id).capacity = c.capacity := by
  unfold BlkCache.invalidate; split <;> rfl

/-- A miss puts the new unit in front; what it evicts is the back of the list. -/
theorem write_miss_key (h : c.Coherent) (hcap : 1 ≤ c.capacity) (hc : c.isCached id = false)
    (d : D) (dirty : Bool) :
    (c.write id d dirty).1.key ++ (c.write id d dirty).2.toList = ⟨id, dirty, d⟩ :: c.key := by
  by_cases hfull : c.size = c.capacity
  · obtain ⟨u, pre, hkey, hw⟩ := write_miss_full h d dirty hcap hc hfull
    rw [hw, hkey]
    rfl
  · rw [write_miss_room h d dirty hc hfull]
    exact List.append_nil _

end BlkCache

namespace BlockCache

variable {D : Type*}

/-- The cache without the blocks. -/
def contents (c : BlockCache D) : BlkCache D := c.units.mapData c.heap

/-- The blocks of the units. -/
def blocks (c : BlockCache D) : List Nat := c.units.key.map CacheUnit.data

/-- **Every block has one owner**: a unit, `free_blocks_`, or (`out`) the owner of
an evicted unit. -/
structure Owned (c : BlockCache D) (out : List Nat) : Prop where
  coherent : c.units.Coherent
  capacity : 1 ≤ c.units.capacity
  nodup : (c.blocks ++ (c.freeBlocks ++ out)).Nodup
  below : ∀ b ∈ c.blocks ++ (c.freeBlocks ++ out), b < c.allocated

variable {c c' : BlockCache D} {out out' : List Nat}

theorem owned_new {capacity : Nat} (hcap : 1 ≤ capacity) (heap : Nat → D) :
    (new capacity heap).Owned [] :=
  ⟨BlkCache.coherent_new capacity, hcap, List.nodup_nil, fun _ hb => absurd hb List.not_mem_nil⟩

/-- The blocks change hands. -/
theorem Owned.perm (h : c.Owned out) (hcoh : c'.units.Coherent) (hcap : 1 ≤ c'.units.capacity)
    (hall : c.allocated ≤ c'.allocated)
    (hp : (c'.blocks ++ (c'.freeBlocks ++ out')).Perm (c.blocks ++ (c.freeBlocks ++ out))) :
    c'.Owned out' :=
  ⟨hcoh, hcap, hp.nodup_iff.2 h.nodup,
    fun b hb => Nat.lt_of_lt_of_le (h.below b (hp.mem_iff.1 hb)) hall⟩

theorem blocks_get (c : BlockCache D) (id : Int) :
    ((c.units.get id).key.map CacheUnit.data).Perm c.blocks :=
  (BlkCache.get_key_perm c.units id).map _

/-- A new block is not one that anybody has. -/
theorem Owned.allocateBlock (h : c.Owned out) :
    c.allocateBlock.1.units = c.units ∧ c.allocateBlock.1.heap = c.heap
      ∧ c.allocated ≤ c.allocateBlock.1.allocated
      ∧ (c.blocks ++ c.allocateBlock.2 :: (c.allocateBlock.1.freeBlocks ++ out)).Nodup
      ∧ ∀ b ∈ c.blocks ++ c.allocateBlock.2 :: (c.allocateBlock.1.freeBlocks ++ out),
          b < c.allocateBlock.1.allocated := by
  have hnd := h.nodup
  have hbelow := h.below
  unfold BlockCache.allocateBlock
  cases hf : c.freeBlocks with
  | nil =>
      rw [hf] at hnd hbelow
      refine ⟨rfl, rfl, Nat.le_succ _, ?_, ?_⟩
      · rw [List.nodup_middle, List.nodup_cons]
        exact ⟨fun hm => Nat.lt_irrefl _ (hbelow _ hm), hnd⟩
      · intro b hb
        rcases List.mem_cons.1 (List.perm_middle.mem_iff.1 hb) with rfl | hb
        · exact Nat.lt_succ_self _
        · exact Nat.lt_succ_of_lt (hbelow b hb)
  | cons block rest =>
      rw [hf] at hnd hbelow
      exact ⟨rfl, rfl, Nat.le_refl _, hnd, hbelow⟩

/-- A miss takes a block and writes the unit list of the cache with it. -/
theorem write_miss (c : BlockCache D) {id : Int} (hc : c.units.isCached id = false) (buffer : D)
    (dirty : Bool) :
    c.write id buffer dirty
      = ({ c.allocateBlock.1 with
            units := (c.allocateBlock.1.units.write id c.allocateBlock.2 dirty).1 }.memcpy
          c.allocateBlock.2 buffer,
        (c.allocateBlock.1.units.write id c.allocateBlock.2 dirty).2) := by
  have hunits : c.allocateBlock.1.units = c.units := by
    unfold allocateBlock; split <;> rfl
  have hc' : ¬ c.units.isCached id = true := by simp [hc]
  unfold write BlkCache.write
  rw [if_neg hc', hunits, if_neg hc', ← hunits]

theorem write_hit (c : BlockCache D) {id : Int} {u : CacheUnit Nat}
    (hc : c.units.isCached id = true) (hu : (c.units.get id).find id = some u) (buffer : D)
    (dirty : Bool) :
    c.write id buffer dirty
      = ({ c with units := c.units.get id }.memcpy u.data buffer, none) := by
  unfold write
  simp only [if_pos hc, hu]

/-- The data of a list of units after a copy into the block `p`. -/
theorem mapData_update {units : BlkCache Nat} {heap : Nat → D} {p : Nat}
    (hp : p ∉ units.key.map CacheUnit.data) (buffer : D) :
    units.mapData (Function.update heap p buffer) = units.mapData heap := by
  unfold BlkCache.mapData
  congr 1
  apply List.map_congr_left
  intro u hu
  have hne : u.data ≠ p := by
    rintro rfl
    exact hp (List.mem_map_of_mem hu)
  rw [Function.update_of_ne hne]

theorem mapData_update_self {units : BlkCache Nat} (hcoh : units.Coherent) {heap : Nat → D}
    (hnd : (units.key.map CacheUnit.data).Nodup) {id : Int} {u : CacheUnit Nat}
    (hu : units.find id = some u) (buffer : D) :
    units.mapData (Function.update heap u.data buffer)
      = (units.mapData heap).memcpy id buffer := by
  unfold BlkCache.mapData BlkCache.memcpy
  simp only [List.map_map]
  congr 1
  apply List.map_congr_left
  intro w hw
  obtain ⟨hum, huid⟩ := hcoh.find_eq_iff.1 hu
  by_cases hwid : w.id = id
  · -- the unit of `id` is the only one with this id
    have hwu : w = u := List.inj_on_of_nodup_map hcoh.nodup hw hum (hwid.trans huid.symm)
    simp [hwu, huid]
  · have hne : w.data ≠ u.data := by
      intro he
      exact hwid (by rw [List.inj_on_of_nodup_map hnd hw hum he, huid])
    simp [hwid, Function.update_of_ne hne]

/-- **`write` with blocks is `write` without them**; the block of the evicted unit
still holds its data. -/
theorem contents_write (h : c.Owned out) (id : Int) (buffer : D) (dirty : Bool) :
    (c.write id buffer dirty).1.contents = (c.contents.write id buffer dirty).1
      ∧ (c.write id buffer dirty).2.map
          (fun u => ⟨u.id, u.dirty, (c.write id buffer dirty).1.heap u.data⟩)
        = (c.contents.write id buffer dirty).2
      ∧ (c.write id buffer dirty).1.Owned
          (out ++ (c.write id buffer dirty).2.toList.map CacheUnit.data) := by
  by_cases hc : c.units.isCached id = true
  · obtain ⟨u, hu⟩ := h.coherent.isCached_iff.1 hc
    have hu' : (c.units.get id).find id = some u := (h.coherent.find_get id id).trans hu
    have hnd : ((c.units.get id).key.map CacheUnit.data).Nodup :=
      (c.blocks_get id).nodup_iff.2 (List.nodup_append.1 h.nodup).1
    rw [write_hit c hc hu']
    refine ⟨?_, ?_, ?_⟩
    · show (c.units.get id).mapData (Function.update c.heap u.data buffer) = _
      rw [mapData_update_self (h.coherent.get id) hnd hu']
      unfold contents BlkCache.write
      rw [BlkCache.mapData_isCached, if_pos hc, BlkCache.mapData_get]
    · rw [BlkCache.write_hit_none buffer dirty (by exact hc)]
      rfl
    · rw [Option.toList_none, List.map_nil, List.append_nil]
      exact h.perm (h.coherent.get id) ((BlkCache.get_capacity c.units id).symm ▸ h.capacity)
        (Nat.le_refl _) ((c.blocks_get id).append_right _)
  · have hc : c.units.isCached id = false := by simpa using hc
    obtain ⟨hunits, hheap, -, hnd, hbelow⟩ := h.allocateBlock
    have hnew : c.allocateBlock.2 ∉ c.units.key.map CacheUnit.data := fun hm =>
      (List.nodup_append.1 hnd).2.2 _ hm _ (List.mem_cons_self ..) rfl
    have hkey := BlkCache.write_miss_key h.coherent h.capacity hc c.allocateBlock.2 dirty
    have hmap := BlkCache.mapData_write_miss (Function.update c.heap c.allocateBlock.2 buffer)
      c.units id hc c.allocateBlock.2 dirty
    rw [mapData_update hnew, Function.update_self] at hmap
    -- the block of the new unit comes from the free ones, that of the evicted one goes out
    have hperm : ((c.units.write id c.allocateBlock.2 dirty).1.key.map CacheUnit.data
          ++ (c.allocateBlock.1.freeBlocks
            ++ (out ++ (c.units.write id c.allocateBlock.2 dirty).2.toList.map CacheUnit.data))).Perm
        (c.blocks ++ c.allocateBlock.2 :: (c.allocateBlock.1.freeBlocks ++ out)) := by
      have hdata := congrArg (List.map CacheUnit.data) hkey
      rw [List.map_append, List.map_cons] at hdata
      refine List.Perm.trans ?_ List.perm_middle.symm
      rw [← List.cons_append]
      refine List.Perm.trans ?_ (List.Perm.of_eq (congrArg (· ++ _) hdata))
      rw [List.append_assoc]
      refine List.Perm.append_left _ ?_
      rw [← List.append_assoc]
      exact List.perm_append_comm
    rw [write_miss c hc, hunits]
    refine ⟨?_, ?_, h.coherent.write _ dirty h.capacity id,
      (BlkCache.write_capacity _ dirty).symm ▸ h.capacity, ?_, ?_⟩
    · show (c.units.write id c.allocateBlock.2 dirty).1.mapData
        (Function.update c.allocateBlock.1.heap c.allocateBlock.2 buffer) = _
      rw [hheap]
      exact (congrArg Prod.fst hmap).symm
    · simp only [memcpy, hheap]
      exact (congrArg Prod.snd hmap).symm
    · exact hperm.nodup_iff.2 hnd
    · exact fun b hb => hbelow b (hperm.mem_iff.1 hb)

/-- **`read` with blocks is `read` without them.** -/
theorem contents_read (h : c.Owned out) (id : Int) :
    (c.read id).1.contents = (c.contents.read id).1 ∧ (c.read id).2 = (c.contents.read id).2
      ∧ (c.read id).1.Owned out := by
  unfold read BlkCache.read contents
  rw [BlkCache.mapData_isCached, BlkCache.mapData_get, BlkCache.mapData_find]
  split
  · refine ⟨rfl, by cases c.units.find id <;> rfl, ?_⟩
    exact h.perm (h.coherent.get id) ((BlkCache.get_capacity c.units id).symm ▸ h.capacity)
      (Nat.le_refl _) ((c.blocks_get id).append_right _)
  · exact ⟨rfl, rfl, h⟩

/-- **`invalidate` with blocks is `invalidate` without them**: the block is free. -/
theorem contents_invalidate (h : c.Owned out) (id : Int) :
    (c.invalidate id).contents = c.contents.invalidate id ∧ (c.invalidate id).Owned out := by
  have hcap : 1 ≤ (c.units.invalidate id).capacity := by
    rw [BlkCache.invalidate_capacity]; exact h.capacity
  unfold invalidate contents
  rw [BlkCache.mapData_invalidate]
  cases hu : c.units.find id with
  | none =>
      have hc : ¬ c.units.isCached id = true := by
        simp [BlkCache.isCached_of_find_none h.coherent hu]
      have hsame : c.units.invalidate id = c.units := by
        unfold BlkCache.invalidate; rw [if_neg hc]
      exact ⟨rfl, by rw [hsame]; exact h⟩
  | some u =>
      refine ⟨rfl, h.perm (h.coherent.invalidate id) hcap (Nat.le_refl _) ?_⟩
      have hc : c.units.isCached id = true := h.coherent.isCached_iff.2 ⟨u, hu⟩
      have hkey : (c.units.invalidate id).key
          = c.units.key.eraseP (fun w => decide (w.id = id)) := by
        unfold BlkCache.invalidate; rw [if_pos hc]
      show ((c.units.invalidate id).key.map CacheUnit.data
        ++ (u.data :: c.freeBlocks ++ out)).Perm (c.blocks ++ (c.freeBlocks ++ out))
      rw [hkey]
      refine List.perm_middle.trans ?_
      rw [← List.cons_append, ← List.map_cons (f := CacheUnit.data)]
      exact ((BlkCache.invalidate_key_perm hu).map _).append_right _

/-- The owner of an evicted unit gives its block back. -/
theorem Owned.freeBlock (h : c.Owned out) {i block : Nat} (hi : out[i]? = some block) :
    (c.freeBlock block).Owned (out.eraseIdx i) := by
  obtain ⟨pre, post, hout, herase, -⟩ := ListSplit.exists_split hi
  refine h.perm h.coherent h.capacity (Nat.le_refl _) ?_
  rw [herase, hout]
  refine List.Perm.append_left _ ?_
  show (block :: (c.freeBlocks ++ (pre ++ post))).Perm (c.freeBlocks ++ (pre ++ block :: post))
  rw [← List.append_assoc, ← List.append_assoc]
  exact List.perm_middle.symm

end BlockCache

/-! ## §3. Runs, and what their history says. -/

inductive CacheOp (D : Type*) where
  | write (id : Int) (buffer : D) (dirty : Bool)
  | read (id : Int)
  | invalidate (id : Int)
  /-- The owner of the `i`-th evicted block gives it back. -/
  | freeBlock (i : Nat)
  deriving Repr, DecidableEq

/-- What the calls so far say: the data last written to an id since it was last
evicted or invalidated, and when it was last written or read with success. -/
structure CacheHistory (D : Type*) where
  last : Int → Option D
  used : Int → Nat
  clock : Nat

namespace CacheHistory

variable {D : Type*}

def new : CacheHistory D := ⟨fun _ => none, fun _ => 0, 0⟩

/-- `id` is used now. -/
def use (h : CacheHistory D) (id : Int) : CacheHistory D :=
  { h with used := Function.update h.used id h.clock, clock := h.clock + 1 }

def forget (h : CacheHistory D) (id : Int) : CacheHistory D :=
  { h with last := Function.update h.last id none }

def write (h : CacheHistory D) (id : Int) (buffer : D) (evicted : Option Int) : CacheHistory D :=
  let h := match evicted with
    | some x => h.forget x
    | none => h
  { h with last := Function.update h.last id (some buffer) }.use id

def read (h : CacheHistory D) (id : Int) (success : Bool) : CacheHistory D :=
  if success then h.use id else h

theorem forget_last (h : CacheHistory D) (id x : Int) :
    (h.forget id).last x = if x = id then none else h.last x :=
  Function.update_apply h.last id none x

theorem write_last (h : CacheHistory D) (id : Int) (buffer : D) (evicted : Option Int) (x : Int) :
    (h.write id buffer evicted).last x
      = if x = id then some buffer else if evicted = some x then none else h.last x := by
  show Function.update (CacheHistory.last _) id (some buffer) x = _
  by_cases hx : x = id
  · rw [if_pos hx, hx, Function.update_self]
  · rw [if_neg hx, Function.update_of_ne hx]
    cases evicted with
    | none => rw [if_neg (by simp)]
    | some y =>
        rw [forget_last]
        by_cases hxy : x = y
        · rw [if_pos hxy, if_pos (by rw [hxy])]
        · rw [if_neg hxy, if_neg (by simpa using Ne.symm hxy)]

/-- Forgetting an evicted id does not touch the uses. -/
theorem write_used (h : CacheHistory D) (id : Int) (buffer : D) (evicted : Option Int) :
    (h.write id buffer evicted).used = (h.use id).used
      ∧ (h.write id buffer evicted).clock = (h.use id).clock := by
  cases evicted <;> exact ⟨rfl, rfl⟩

end CacheHistory

/-- The cache, the blocks of evicted units, and the history. -/
structure CacheState (D : Type*) where
  cache : BlockCache D
  out : List Nat
  history : CacheHistory D

namespace CacheState

variable {D : Type*}

def new (capacity : Nat) (heap : Nat → D) : CacheState D :=
  ⟨BlockCache.new capacity heap, [], CacheHistory.new⟩

def step (s : CacheState D) : CacheOp D → CacheState D
  | .write id buffer dirty =>
      let r := s.cache.write id buffer dirty
      ⟨r.1, s.out ++ r.2.toList.map CacheUnit.data,
        s.history.write id buffer (r.2.map CacheUnit.id)⟩
  | .read id =>
      let r := s.cache.read id
      ⟨r.1, s.out, s.history.read id r.2.isSome⟩
  | .invalidate id => ⟨s.cache.invalidate id, s.out, s.history.forget id⟩
  | .freeBlock i =>
      match s.out[i]? with
      | some block => ⟨s.cache.freeBlock block, s.out.eraseIdx i, s.history⟩
      | none => s

def run (s : CacheState D) (ops : List (CacheOp D)) : CacheState D := ops.foldl step s

end CacheState

/-! ## §4. The units stand in the order of their last use. -/

section Recency

variable {D : Type*} {c : BlkCache D} {h : CacheHistory D} {id : Int}

/-- The units have the data last written, and stand in the order of their last use. -/
structure Recent (c : BlkCache D) (h : CacheHistory D) : Prop where
  coherent : c.Coherent
  capacity : 1 ≤ c.capacity
  last : ∀ x, h.last x = (c.find x).map CacheUnit.data
  order : (c.key.map CacheUnit.id).Pairwise (fun x y => h.used y < h.used x)
  clock : ∀ x ∈ c.key.map CacheUnit.id, h.used x < h.clock

theorem recent_new {capacity : Nat} (hcap : 1 ≤ capacity) :
    Recent (BlkCache.new capacity : BlkCache D) CacheHistory.new :=
  ⟨BlkCache.coherent_new capacity, hcap, fun _ => rfl, List.Pairwise.nil,
    fun _ hx => absurd hx List.not_mem_nil⟩

/-- What is used now goes in front of the others. -/
theorem use_order {l : List Int} (hl : l.Pairwise (fun x y => h.used y < h.used x))
    (hclock : ∀ x ∈ l, h.used x < h.clock) (hid : id ∉ l) :
    (id :: l).Pairwise (fun x y => (h.use id).used y < (h.use id).used x)
      ∧ ∀ x ∈ id :: l, (h.use id).used x < (h.use id).clock := by
  have hself : (h.use id).used id = h.clock := Function.update_self ..
  have hother : ∀ x ∈ l, (h.use id).used x = h.used x := by
    intro x hx
    refine Function.update_of_ne ?_ ..
    rintro rfl
    exact hid hx
  refine ⟨List.pairwise_cons.2 ⟨fun x hx => ?_, ?_⟩, fun x hx => ?_⟩
  · rw [hself, hother x hx]
    exact hclock x hx
  · refine hl.imp_of_mem fun {x y} hx hy hxy => ?_
    rw [hother x hx, hother y hy]
    exact hxy
  · rcases List.mem_cons.1 hx with rfl | hx
    · rw [hself]
      exact Nat.lt_succ_self _
    · rw [hother x hx]
      exact Nat.lt_succ_of_lt (hclock x hx)

/-- A hit moves the unit of `id` to the front. -/
theorem Recent.get_order (hr : Recent c h) {u : CacheUnit D} (hu : c.find id = some u) :
    ((c.get id).key.map CacheUnit.id).Pairwise
        (fun x y => (h.use id).used y < (h.use id).used x)
      ∧ ∀ x ∈ (c.get id).key.map CacheUnit.id, (h.use id).used x < (h.use id).clock := by
  have hids : (c.get id).key.map CacheUnit.id
      = id :: (c.key.eraseP (fun w => decide (w.id = id))).map CacheUnit.id := by
    unfold BlkCache.get
    rw [hu]
    exact congrArg (· :: _) (BlkCache.find_some_id hu)
  have hnd := (hr.coherent.get id).nodup
  rw [hids] at hnd ⊢
  have hsub : ((c.key.eraseP (fun w => decide (w.id = id))).map CacheUnit.id).Sublist
      (c.key.map CacheUnit.id) := List.eraseP_sublist.map _
  exact use_order (hr.order.sublist hsub) (fun x hx => hr.clock x (hsub.subset hx))
    (List.nodup_cons.1 hnd).1

theorem Recent.read (hr : Recent c h) (id : Int) :
    Recent (c.read id).1 (h.read id (c.read id).2.isSome) := by
  cases hu : c.find id with
  | none =>
      rw [BlkCache.read_miss hr.coherent hu]
      exact hr
  | some u =>
      obtain ⟨horder, hclock⟩ := hr.get_order hu
      rw [BlkCache.read_hit hr.coherent hu]
      refine ⟨hr.coherent.get id, (BlkCache.get_capacity c id).symm ▸ hr.capacity, fun x => ?_,
        horder, hclock⟩
      rw [hr.coherent.find_get]
      exact hr.last x

theorem Recent.invalidate (hr : Recent c h) (id : Int) :
    Recent (c.invalidate id) (h.forget id) := by
  have hsub : ((c.invalidate id).key.map CacheUnit.id).Sublist (c.key.map CacheUnit.id) := by
    unfold BlkCache.invalidate
    split
    · exact List.eraseP_sublist.map _
    · exact List.Sublist.refl _
  refine ⟨hr.coherent.invalidate id, BlkCache.invalidate_capacity.symm ▸ hr.capacity, fun x => ?_,
    hr.order.sublist hsub, fun x hx => hr.clock x (hsub.subset hx)⟩
  rw [hr.coherent.find_invalidate, CacheHistory.forget_last, hr.last x]
  split <;> rfl

theorem Recent.write (hr : Recent c h) (id : Int) (buffer : D) (dirty : Bool) :
    Recent (c.write id buffer dirty).1
      (h.write id buffer ((c.write id buffer dirty).2.map CacheUnit.id)) := by
  have hcoh := hr.coherent.write buffer dirty hr.capacity id
  have hcap : 1 ≤ (c.write id buffer dirty).1.capacity := by
    rw [BlkCache.write_capacity]; exact hr.capacity
  have hused := h.write_used id buffer ((c.write id buffer dirty).2.map CacheUnit.id)
  cases hu : c.find id with
  | some u =>
      have hc : c.isCached id = true := hr.coherent.isCached_iff.2 ⟨u, hu⟩
      obtain ⟨horder, hclock⟩ := hr.get_order hu
      have hids : (c.write id buffer dirty).1.key.map CacheUnit.id
          = (c.get id).key.map CacheUnit.id := by
        unfold BlkCache.write
        rw [if_pos hc]
        exact BlkCache.memcpy_ids (c.get id) id buffer
      refine ⟨hcoh, hcap, fun x => ?_, ?_, ?_⟩
      · rw [CacheHistory.write_last, BlkCache.write_hit_none buffer dirty hc,
          BlkCache.find_write_hit hr.coherent buffer dirty hu, hr.last x]
        split <;> rfl
      · rw [hids, hused.1]; exact horder
      · rw [hids, hused.1, hused.2]; exact hclock
  | none =>
      have hc := BlkCache.isCached_of_find_none hr.coherent hu
      have hid : id ∉ c.key.map CacheUnit.id := by
        rw [← hr.coherent.mem_cache]
        simpa [BlkCache.isCached] using hc
      obtain ⟨horder, hclock⟩ := use_order hr.order hr.clock hid
      have hsub : ((c.write id buffer dirty).1.key.map CacheUnit.id).Sublist
          (id :: c.key.map CacheUnit.id) := by
        have hkey := BlkCache.write_miss_key hr.coherent hr.capacity hc buffer dirty
        have := (List.sublist_append_left (c.write id buffer dirty).1.key
          (c.write id buffer dirty).2.toList).map CacheUnit.id
        rwa [hkey] at this
      refine ⟨hcoh, hcap, fun x => ?_, ?_, ?_⟩
      · rw [CacheHistory.write_last, BlkCache.find_write_miss hr.coherent buffer dirty hr.capacity hu,
          hr.last x]
        simp only [Option.map_eq_some_iff]
        split
        · rfl
        · split <;> rfl
      · rw [hused.1]; exact horder.sublist hsub
      · rw [hused.1, hused.2]; exact fun x hx => hclock x (hsub.subset hx)

/-- **When a write evicts**: exactly when the id is absent and the cache is full. -/
theorem Recent.evicts_iff (hr : Recent c h) (id : Int) (buffer : D) (dirty : Bool) :
    (c.write id buffer dirty).2.isSome = true ↔ h.last id = none ∧ c.size = c.capacity := by
  rw [hr.last id]
  cases hu : c.find id with
  | some u =>
      rw [BlkCache.write_hit_none buffer dirty (hr.coherent.isCached_iff.2 ⟨u, hu⟩)]
      simp
  | none =>
      have hc := BlkCache.isCached_of_find_none hr.coherent hu
      by_cases hfull : c.size = c.capacity
      · obtain ⟨u, pre, -, hw⟩ :=
          BlkCache.write_miss_full hr.coherent buffer dirty hr.capacity hc hfull
        simp [hw, hfull]
      · rw [BlkCache.write_miss_room hr.coherent buffer dirty hc hfull]
        simp [hfull]

/-- **Which unit a write evicts**: the one that was used least recently, with the
data last written to it. -/
theorem Recent.victim (hr : Recent c h) {buffer : D} {dirty : Bool} {u : CacheUnit D}
    (hu : (c.write id buffer dirty).2 = some u) :
    h.last u.id = some u.data
      ∧ ∀ x, h.last x ≠ none → x ≠ u.id → h.used u.id < h.used x := by
  obtain ⟨hfu, -, hmiss⟩ := BlkCache.write_evicts hr.coherent buffer dirty hr.capacity hu
  have hc := BlkCache.isCached_of_find_none hr.coherent hmiss
  have hfull : c.size = c.capacity :=
    ((hr.evicts_iff id buffer dirty).1 (by rw [hu]; rfl)).2
  obtain ⟨w, pre, hkey, hw⟩ :=
    BlkCache.write_miss_full hr.coherent buffer dirty hr.capacity hc hfull
  have hwu : w = u := by
    rw [hw] at hu
    exact Option.some.inj hu
  subst hwu
  refine ⟨by rw [hr.last, hfu]; rfl, fun x hx hne => ?_⟩
  have horder := hr.order
  rw [hkey, List.map_append] at horder
  refine (List.pairwise_append.1 horder).2.2 x ?_ w.id (by simp)
  -- whatever is in the cache and not at the back stands before it
  rw [hr.last x, Ne, Option.map_eq_none_iff] at hx
  obtain ⟨v, hv⟩ := Option.ne_none_iff_exists'.1 hx
  obtain ⟨hmem, hvx⟩ := hr.coherent.find_eq_iff.1 hv
  rw [hkey, List.mem_append, List.mem_singleton] at hmem
  rcases hmem with hmem | rfl
  · exact hvx ▸ List.mem_map_of_mem hmem
  · exact absurd hvx.symm hne

end Recency

/-! ## §5. The cache is an LRU map. -/

section LruMap

variable {D : Type*}

/-- What `blk_cache` promises, in a state and for the calls that may come next. -/
structure CacheState.IsLruMap (s : CacheState D) : Prop where
  /-- `cache_` and `key_` hold the same ids, each once. -/
  nodup : (s.cache.units.key.map CacheUnit.id).Nodup
  perm : s.cache.units.cache.Perm (s.cache.units.key.map CacheUnit.id)
  size_eq : s.cache.units.size = s.cache.units.key.length
  size_le : s.cache.units.size ≤ s.cache.units.capacity
  /-- A read returns the data last written since the id was last evicted or
  invalidated, and fails if there are none. -/
  read : ∀ id, (s.cache.read id).2 = s.history.last id
  evicts : ∀ id buffer dirty, (s.cache.write id buffer dirty).2.isSome = true
    ↔ s.history.last id = none ∧ s.cache.units.size = s.cache.units.capacity
  /-- The victim has its last data in its block, and was used before all others. -/
  victim : ∀ id buffer dirty u, (s.cache.write id buffer dirty).2 = some u →
    s.history.last u.id = some ((s.cache.write id buffer dirty).1.heap u.data)
      ∧ ∀ x, s.history.last x ≠ none → x ≠ u.id → s.history.used u.id < s.history.used x

structure CacheInv (s : CacheState D) : Prop where
  owned : s.cache.Owned s.out
  recent : Recent s.cache.contents s.history

theorem cache_step_inv {s : CacheState D} (h : CacheInv s) (op : CacheOp D) :
    CacheInv (s.step op) := by
  cases op with
  | write id buffer dirty =>
      obtain ⟨hcontents, hevict, howned⟩ := BlockCache.contents_write h.owned id buffer dirty
      have hr := h.recent.write id buffer dirty
      rw [← hcontents, ← hevict, Option.map_map] at hr
      exact ⟨howned, hr⟩
  | read id =>
      obtain ⟨hcontents, hread, howned⟩ := BlockCache.contents_read h.owned id
      have hr := h.recent.read id
      rw [← hcontents, ← hread] at hr
      exact ⟨howned, hr⟩
  | invalidate id =>
      obtain ⟨hcontents, howned⟩ := BlockCache.contents_invalidate h.owned id
      have hr := h.recent.invalidate id
      rw [← hcontents] at hr
      exact ⟨howned, hr⟩
  | freeBlock i =>
      simp only [CacheState.step]
      cases hi : s.out[i]? with
      | none => exact h
      | some block => exact ⟨h.owned.freeBlock hi, h.recent⟩

theorem cache_run_inv (ops : List (CacheOp D)) :
    ∀ {s : CacheState D}, CacheInv s → CacheInv (s.run ops) := by
  induction ops with
  | nil => intro s h; exact h
  | cons op ops ih => intro s h; exact ih (cache_step_inv h op)

theorem CacheInv.isLruMap {s : CacheState D} (h : CacheInv s) : s.IsLruMap := by
  have hcoh := h.owned.coherent
  refine ⟨hcoh.nodup, hcoh.perm, hcoh.size_eq, hcoh.size_le, fun id => ?_, fun id buffer dirty => ?_,
    fun id buffer dirty u hu => ?_⟩
  · rw [(BlockCache.contents_read h.owned id).2.1, BlkCache.read_snd h.recent.coherent,
      h.recent.last]
  · have hevict := (BlockCache.contents_write h.owned id buffer dirty).2.1
    have := h.recent.evicts_iff id buffer dirty
    rwa [← hevict, Option.isSome_map] at this
  · have hevict := (BlockCache.contents_write h.owned id buffer dirty).2.1
    rw [hu, Option.map_some] at hevict
    exact h.recent.victim hevict.symm

/-- **The block cache is an LRU map**, after any sequence of calls and whenever the
blocks of evicted units are given back. -/
theorem run_isLruMap {capacity : Nat} (hcap : 1 ≤ capacity) (heap : Nat → D)
    (ops : List (CacheOp D)) : ((CacheState.new capacity heap).run ops).IsLruMap := by
  have hnew : CacheInv (CacheState.new capacity heap) :=
    ⟨BlockCache.owned_new hcap heap, recent_new hcap⟩
  exact (cache_run_inv ops hnew).isLruMap

/-- A full cache of two units, one of them read again: the other is the victim. -/
theorem run_isLruMap_reorder :
    ((CacheState.new 2 (fun _ => 0)).run
      [.write 1 10 false, .write 2 20 true, .read 1, .write 3 30 false, .freeBlock 0,
        .invalidate 1, .write 4 40 false]).IsLruMap :=
  run_isLruMap (by decide) (fun _ => 0) _

example : (((CacheState.new 2 (fun _ => 0)).run
    [.write 1 10 false, .write 2 20 true, .read 1]).cache.write 3 30 false).2
      = some ⟨2, true, 1⟩ := by decide

end LruMap

end NvmTree.Blk
