/-
  NvmTree.Blk.Cache — `blk_cache`, the LRU block cache of the accessors.

  `key_` is the recency list of cache units (front = most recent) and `cache_`
  the hash map from ids into it; a unit's `data` pointer is modelled by the
  block it points to.  The one place where the pointer matters is `write` on a
  HIT: the source works on a copy of the unit, so the block reached through
  `data` changes and the `dirty` flag of the unit in the list does not.

  Main results (for a `Coherent` cache, that is: map and list agree):
    * `find_read`      — a hit changes the order of the units and nothing else.
    * `find_write_hit` — a hit replaces the data and KEEPS the old dirty flag.
    * `find_write_miss` / `write_evicts` — a miss adds the unit, and the unit
      it evicts is another one, exactly as it stood in the cache.
-/
import Mathlib.Data.List.Basic
import Mathlib.Data.List.Nodup
import Mathlib.Data.List.Perm.Basic
import Mathlib.Tactic.Common

namespace NvmTree.Blk

/-! ## §1. The cache and its operations. -/

structure CacheUnit (D : Type*) where
  id : Int
  dirty : Bool
  data : D
  deriving Repr, DecidableEq

structure BlkCache (D : Type*) where
  capacity : Nat
  size : Nat
  /-- The ids that `cache_` maps to a place in `key_`. -/
  cache : List Int
  key : List (CacheUnit D)
  deriving Repr, DecidableEq

namespace BlkCache

variable {D : Type*}

/-- The constructor: an empty cache of the given capacity. -/
def new (capacity : Nat) : BlkCache D := ⟨capacity, 0, [], []⟩

def isCached (c : BlkCache D) (id : Int) : Bool := decide (id ∈ c.cache)

/-- The unit that `cache_.find(id)` leads to. -/
def find (c : BlkCache D) (id : Int) : Option (CacheUnit D) :=
  c.key.find? (fun u => decide (u.id = id))

def insertNewUnit (c : BlkCache D) (unit : CacheUnit D) : BlkCache D :=
  { c with key := unit :: c.key, cache := unit.id :: c.cache, size := c.size + 1 }

/-- Take the least recent unit out of the list and of the map. -/
def evictUnit (c : BlkCache D) : BlkCache D × Option (CacheUnit D) :=
  match c.key.getLast? with
  | some u =>
      ({ c with key := c.key.dropLast, cache := c.cache.erase u.id, size := c.size - 1 }, some u)
  | none => (c, none)

/-- Splice the unit of `id` to the front. -/
def get (c : BlkCache D) (id : Int) : BlkCache D :=
  match c.find id with
  | some u => { c with key := u :: c.key.eraseP (fun u => decide (u.id = id)) }
  | none => c

/-- `memcpy` into the block that the unit of `id` points to. -/
def memcpy (c : BlkCache D) (id : Int) (buffer : D) : BlkCache D :=
  { c with key := c.key.map (fun u => if u.id = id then { u with data := buffer } else u) }

/-- `write` returns the unit it evicted, if any. -/
def write (c : BlkCache D) (id : Int) (buffer : D) (dirty : Bool) :
    BlkCache D × Option (CacheUnit D) :=
  if c.isCached id then
    -- `unit = get(id)` is a COPY: `unit.dirty |= dirty` is lost with it
    ((c.get id).memcpy id buffer, none)
  else
    let c' := c.insertNewUnit ⟨id, dirty, buffer⟩
    if c'.size > c'.capacity then c'.evictUnit else (c', none)

/-- `read` returns the block on a hit. -/
def read (c : BlkCache D) (id : Int) : BlkCache D × Option D :=
  if c.isCached id then (c.get id, (c.find id).map CacheUnit.data) else (c, none)

def invalidate (c : BlkCache D) (id : Int) : BlkCache D :=
  if c.isCached id then
    { c with
      key := c.key.eraseP (fun u => decide (u.id = id))
      cache := c.cache.erase id
      size := c.size - 1 }
  else c

/-! ## §2. Coherence of the map and the list. -/

/-- `cache_` and `key_` hold the same ids, each once, and `size_` counts them. -/
structure Coherent (c : BlkCache D) : Prop where
  nodup : (c.key.map CacheUnit.id).Nodup
  perm : c.cache.Perm (c.key.map CacheUnit.id)
  size_eq : c.size = c.key.length
  size_le : c.size ≤ c.capacity

theorem coherent_new (capacity : Nat) : (new capacity : BlkCache D).Coherent :=
  ⟨by simp [new], by simp [new], rfl, Nat.zero_le _⟩

variable {c : BlkCache D} {id x : Int}

theorem Coherent.mem_cache (h : c.Coherent) : id ∈ c.cache ↔ id ∈ c.key.map CacheUnit.id :=
  h.perm.mem_iff

theorem find_some_id {u : CacheUnit D} (h : c.find id = some u) : u.id = id := by
  unfold find at h
  simpa using List.find?_some h

theorem find_some_mem {u : CacheUnit D} (h : c.find id = some u) : u ∈ c.key :=
  List.mem_of_find?_eq_some h

theorem Coherent.isCached_iff (h : c.Coherent) : c.isCached id = true ↔ ∃ u, c.find id = some u := by
  unfold isCached find
  rw [decide_eq_true_eq, h.mem_cache, ← Option.isSome_iff_exists, List.find?_isSome]
  simp

theorem Coherent.not_cached (h : c.Coherent) (hf : c.isCached id = false) : c.find id = none := by
  rw [Option.eq_none_iff_forall_ne_some]
  intro u hu
  have := h.isCached_iff.2 ⟨u, hu⟩
  rw [hf] at this
  exact Bool.noConfusion this

/-- In a list without repeated ids, a member is what `find` finds. -/
theorem find_of_mem {l : List (CacheUnit D)} (hnd : (l.map CacheUnit.id).Nodup)
    {u : CacheUnit D} (hu : u ∈ l) : l.find? (fun w => decide (w.id = u.id)) = some u := by
  induction l with
  | nil => cases hu
  | cons w l ih =>
      rw [List.map_cons, List.nodup_cons] at hnd
      rcases List.mem_cons.1 hu with rfl | hu'
      · simp
      · have hne : w.id ≠ u.id := by
          intro he
          exact hnd.1 (he ▸ List.mem_map_of_mem hu')
        rw [List.find?_cons_of_neg (by simpa using hne)]
        exact ih hnd.2 hu'

theorem Coherent.find_mem (h : c.Coherent) {u : CacheUnit D} (hu : u ∈ c.key) :
    c.find u.id = some u := find_of_mem h.nodup hu

theorem Coherent.find_eq_iff (h : c.Coherent) {u : CacheUnit D} :
    c.find id = some u ↔ u ∈ c.key ∧ u.id = id := by
  constructor
  · intro hf
    exact ⟨find_some_mem hf, find_some_id hf⟩
  · rintro ⟨hm, rfl⟩
    exact h.find_mem hm

/-- Two caches with the same units find the same units. -/
theorem find_congr {c' : BlkCache D} (h : c.Coherent) (h' : c'.Coherent)
    (hmem : ∀ u, u ∈ c'.key ↔ u ∈ c.key) : c'.find x = c.find x := by
  apply Option.ext
  intro u
  rw [h.find_eq_iff, h'.find_eq_iff, hmem u]

/-! ## §3. `get` and `read` only change the order. -/

/-- Splicing a unit to the front permutes the list. -/
theorem get_key_perm (c : BlkCache D) (id : Int) : (c.get id).key.Perm c.key := by
  unfold get
  cases hf : c.find id with
  | none => exact List.Perm.refl _
  | some u =>
      show (u :: c.key.eraseP _).Perm c.key
      unfold find at hf
      obtain ⟨hu, as, bs, hkey, has⟩ := List.find?_eq_some_iff_append.1 hf
      have has' : ∀ b ∈ as, ¬ decide (b.id = id) = true := by simpa using has
      rw [hkey, List.eraseP_append_right _ has',
        List.eraseP_cons_of_pos (p := fun b : CacheUnit D => decide (b.id = id)) hu]
      exact (List.perm_middle).symm

@[simp] theorem get_cache (c : BlkCache D) (id : Int) : (c.get id).cache = c.cache := by
  unfold get; cases c.find id <;> rfl

@[simp] theorem get_size (c : BlkCache D) (id : Int) : (c.get id).size = c.size := by
  unfold get; cases c.find id <;> rfl

@[simp] theorem get_capacity (c : BlkCache D) (id : Int) : (c.get id).capacity = c.capacity := by
  unfold get; cases c.find id <;> rfl

theorem Coherent.get (h : c.Coherent) (id : Int) : (c.get id).Coherent := by
  have hp := get_key_perm c id
  refine ⟨?_, ?_, ?_, ?_⟩
  · exact (hp.map CacheUnit.id).nodup_iff.2 h.nodup
  · rw [get_cache]; exact h.perm.trans (hp.map CacheUnit.id).symm
  · rw [get_size, hp.length_eq]; exact h.size_eq
  · rw [get_size, get_capacity]; exact h.size_le

theorem Coherent.find_get (h : c.Coherent) (id x : Int) : (c.get id).find x = c.find x :=
  find_congr h (h.get id) (fun _ => (get_key_perm c id).mem_iff)

theorem Coherent.read (h : c.Coherent) (id : Int) : (c.read id).1.Coherent := by
  unfold BlkCache.read
  split
  · exact h.get id
  · exact h

/-- **A read never changes what the cache holds.** -/
theorem find_read (h : c.Coherent) (id x : Int) : (c.read id).1.find x = c.find x := by
  unfold BlkCache.read
  split
  · exact h.find_get id x
  · rfl

theorem read_snd (h : c.Coherent) (id : Int) : (c.read id).2 = (c.find id).map CacheUnit.data := by
  unfold BlkCache.read
  by_cases hc : c.isCached id = true
  · simp [hc]
  · simp [hc, h.not_cached (by simpa using hc)]

theorem read_hit (h : c.Coherent) {u : CacheUnit D} (hu : c.find id = some u) :
    c.read id = (c.get id, some u.data) := by
  unfold BlkCache.read
  rw [if_pos (h.isCached_iff.2 ⟨u, hu⟩), hu]
  rfl

theorem isCached_of_find_none (h : c.Coherent) (hf : c.find id = none) : c.isCached id = false := by
  rw [Bool.eq_false_iff]
  intro ht
  obtain ⟨u, hu⟩ := h.isCached_iff.1 ht
  rw [hf] at hu
  cases hu

theorem read_miss (h : c.Coherent) (hf : c.find id = none) : c.read id = (c, none) := by
  unfold BlkCache.read
  simp [isCached_of_find_none h hf]

@[simp] theorem read_capacity (c : BlkCache D) (id : Int) : (c.read id).1.capacity = c.capacity := by
  unfold BlkCache.read; split <;> simp

/-! ## §4. `write` on a hit. -/

theorem memcpy_ids (c : BlkCache D) (id : Int) (buffer : D) :
    (c.memcpy id buffer).key.map CacheUnit.id = c.key.map CacheUnit.id := by
  show (c.key.map _).map CacheUnit.id = _
  rw [List.map_map]
  apply List.map_congr_left
  intro u _
  by_cases hu : u.id = id <;> simp [hu]

theorem Coherent.memcpy (h : c.Coherent) (id : Int) (buffer : D) : (c.memcpy id buffer).Coherent := by
  refine ⟨?_, ?_, ?_, h.size_le⟩
  · rw [memcpy_ids]; exact h.nodup
  · rw [memcpy_ids]; exact h.perm
  · show c.size = (c.key.map _).length
    rw [List.length_map]; exact h.size_eq

theorem Coherent.find_memcpy (h : c.Coherent) (id : Int) (buffer : D) (x : Int) :
    (c.memcpy id buffer).find x
      = (c.find x).map (fun u => if u.id = id then { u with data := buffer } else u) := by
  apply Option.ext
  intro w
  rw [(h.memcpy id buffer).find_eq_iff, Option.map_eq_some_iff]
  show (w ∈ c.key.map _ ∧ w.id = x) ↔ _
  rw [List.mem_map]
  constructor
  · rintro ⟨⟨u, hu, rfl⟩, hx⟩
    refine ⟨u, h.find_eq_iff.2 ⟨hu, ?_⟩, rfl⟩
    by_cases he : u.id = id <;> simpa [he] using hx
  · rintro ⟨u, hu, rfl⟩
    obtain ⟨hm, hx⟩ := h.find_eq_iff.1 hu
    refine ⟨⟨u, hm, rfl⟩, ?_⟩
    by_cases he : u.id = id <;> simpa [he] using hx

section Write

variable (h : c.Coherent) (buffer : D) (dirty : Bool)

/-- A hit evicts nothing. -/
theorem write_hit_none (hc : c.isCached id = true) : (c.write id buffer dirty).2 = none := by
  unfold BlkCache.write; simp [hc]

include h

/-- **A hit replaces the data and keeps the old dirty flag**, whatever `dirty` says. -/
theorem find_write_hit {u : CacheUnit D} (hu : c.find id = some u) (x : Int) :
    (c.write id buffer dirty).1.find x
      = if x = id then some { u with data := buffer } else c.find x := by
  have hc : c.isCached id = true := h.isCached_iff.2 ⟨u, hu⟩
  have hw : (c.write id buffer dirty).1 = (c.get id).memcpy id buffer := by
    unfold BlkCache.write; simp [hc]
  rw [hw, (h.get id).find_memcpy, h.find_get]
  by_cases hx : x = id
  · subst hx
    simp [hu, find_some_id hu]
  · rw [if_neg hx]
    cases hf : c.find x with
    | none => rfl
    | some w => simp [find_some_id hf, hx]

/-! ## §5. `write` on a miss. -/

omit h in
/-- What a miss leaves, before any eviction. -/
theorem write_miss_eq (hc : c.isCached id = false) :
    c.write id buffer dirty
      = (if c.capacity < c.size + 1 then (c.insertNewUnit ⟨id, dirty, buffer⟩).evictUnit
          else (c.insertNewUnit ⟨id, dirty, buffer⟩, none)) := by
  unfold BlkCache.write
  simp only [hc]
  rfl

/-- The unit a miss evicts is the least recent one of the full cache. -/
theorem write_miss_full (hcap : 1 ≤ c.capacity) (hc : c.isCached id = false)
    (hfull : c.size = c.capacity) :
    ∃ u pre, c.key = pre ++ [u] ∧
      c.write id buffer dirty
        = ({ c with
              key := ⟨id, dirty, buffer⟩ :: pre
              cache := (id :: c.cache).erase u.id
              size := c.size }, some u) := by
  have hne : c.key ≠ [] := by
    intro hnil
    have := h.size_eq
    rw [hnil] at this
    simp only [List.length_nil] at this
    omega
  refine ⟨c.key.getLast hne, c.key.dropLast, (List.dropLast_append_getLast hne).symm, ?_⟩
  rw [write_miss_eq buffer dirty hc, if_pos (by omega)]
  unfold evictUnit insertNewUnit
  have hl : (⟨id, dirty, buffer⟩ :: c.key : List (CacheUnit D)).getLast?
      = some (c.key.getLast hne) := by
    rw [List.getLast?_cons_of_ne_nil hne, List.getLast?_eq_getLast_of_ne_nil hne]
  simp only [hl, List.dropLast_cons_of_ne_nil hne, Nat.add_sub_cancel]

/-- A miss on a cache with room evicts nothing. -/
theorem write_miss_room (hc : c.isCached id = false) (hroom : c.size ≠ c.capacity) :
    c.write id buffer dirty = (c.insertNewUnit ⟨id, dirty, buffer⟩, none) := by
  have := h.size_le
  rw [write_miss_eq buffer dirty hc, if_neg (by omega)]

theorem Coherent.insertNewUnit (hc : c.isCached id = false) (hroom : c.size ≠ c.capacity) :
    (c.insertNewUnit ⟨id, dirty, buffer⟩).Coherent := by
  have hle := h.size_le
  have hid : id ∉ c.key.map CacheUnit.id := by
    rw [← h.mem_cache]
    unfold isCached at hc
    simpa using hc
  refine ⟨?_, ?_, ?_, ?_⟩
  · show ((⟨id, dirty, buffer⟩ :: c.key : List (CacheUnit D)).map CacheUnit.id).Nodup
    rw [List.map_cons, List.nodup_cons]
    exact ⟨hid, h.nodup⟩
  · show (id :: c.cache).Perm (id :: c.key.map CacheUnit.id)
    exact h.perm.cons id
  · show c.size + 1 = c.key.length + 1
    rw [h.size_eq]
  · show c.size + 1 ≤ c.capacity
    omega

/-- `write` keeps map and list in step. -/
theorem Coherent.write (hcap : 1 ≤ c.capacity) (id : Int) : (c.write id buffer dirty).1.Coherent := by
  by_cases hc : c.isCached id = true
  · have hw : (c.write id buffer dirty).1 = (c.get id).memcpy id buffer := by
      unfold BlkCache.write; simp [hc]
    rw [hw]
    exact (h.get id).memcpy id buffer
  · have hc' : c.isCached id = false := by simpa using hc
    by_cases hfull : c.size = c.capacity
    · obtain ⟨u, pre, hkey, hw⟩ := write_miss_full h buffer dirty hcap hc' hfull
      have hid : id ∉ c.key.map CacheUnit.id := by
        rw [← h.mem_cache]
        unfold isCached at hc'
        simpa using hc'
      have hnd := h.nodup
      rw [hkey, List.map_append, List.map_cons, List.map_nil] at hnd hid
      have hne : id ≠ u.id := by
        rintro rfl
        exact hid (by simp)
      rw [hw]
      refine ⟨?_, ?_, ?_, h.size_le⟩
      · show (id :: pre.map CacheUnit.id).Nodup
        rw [List.nodup_cons]
        exact ⟨fun hm => hid (List.mem_append_left _ hm), (List.nodup_append.1 hnd).1⟩
      · show ((id :: c.cache).erase u.id).Perm (id :: pre.map CacheUnit.id)
        rw [List.erase_cons_tail (by simpa using hne)]
        refine List.Perm.cons id ?_
        have hp : c.cache.Perm (u.id :: pre.map CacheUnit.id) := by
          refine h.perm.trans ?_
          rw [hkey, List.map_append, List.map_cons, List.map_nil]
          exact List.perm_append_singleton _ _
        exact (hp.erase u.id).trans (by rw [List.erase_cons_head])
      · show c.size = (⟨id, dirty, buffer⟩ :: pre : List (CacheUnit D)).length
        have := h.size_eq
        rw [hkey] at this
        simpa using this
    · rw [write_miss_room h buffer dirty hc' hfull]
      exact h.insertNewUnit buffer dirty hc' hfull

/-- **The evicted unit is another block, as it stood in the cache**, and only a
miss on a full cache evicts. -/
theorem write_evicts (hcap : 1 ≤ c.capacity) {u : CacheUnit D}
    (hev : (c.write id buffer dirty).2 = some u) :
    c.find u.id = some u ∧ u.id ≠ id ∧ c.find id = none := by
  by_cases hc : c.isCached id = true
  · rw [write_hit_none buffer dirty hc] at hev
    cases hev
  · have hc' : c.isCached id = false := by simpa using hc
    by_cases hfull : c.size = c.capacity
    · obtain ⟨w, pre, hkey, hw⟩ := write_miss_full h buffer dirty hcap hc' hfull
      rw [hw] at hev
      cases hev
      have hm : u ∈ c.key := by rw [hkey]; simp
      refine ⟨h.find_mem hm, ?_, h.not_cached hc'⟩
      intro he
      have := h.isCached_iff.2 ⟨u, h.find_mem hm⟩
      rw [he, hc'] at this
      exact Bool.noConfusion this
    · rw [write_miss_room h buffer dirty hc' hfull] at hev
      cases hev

/-- **A miss adds the new unit and drops the evicted one, nothing else.** -/
theorem find_write_miss (hcap : 1 ≤ c.capacity) (hc : c.find id = none) (x : Int) :
    (c.write id buffer dirty).1.find x
      = if x = id then some ⟨id, dirty, buffer⟩
        else if ∃ u, (c.write id buffer dirty).2 = some u ∧ u.id = x then none
        else c.find x := by
  have hc' : c.isCached id = false := isCached_of_find_none h hc
  have hcoh := h.write buffer dirty hcap id
  by_cases hfull : c.size = c.capacity
  · obtain ⟨u, pre, hkey, hw⟩ := write_miss_full h buffer dirty hcap hc' hfull
    rw [hw] at hcoh ⊢
    have hnd := h.nodup
    rw [hkey, List.map_append, List.map_cons, List.map_nil] at hnd
    by_cases hx : x = id
    · subst hx
      rw [if_pos rfl]
      exact hcoh.find_eq_iff.2 ⟨by simp, rfl⟩
    · rw [if_neg hx]
      by_cases hu : u.id = x
      · rw [if_pos ⟨u, rfl, hu⟩]
        rw [Option.eq_none_iff_forall_ne_some]
        intro w hwf
        obtain ⟨hm, hwx⟩ := hcoh.find_eq_iff.1 hwf
        rcases List.mem_cons.1 hm with rfl | hm
        · exact hx hwx.symm
        · have hd := (List.nodup_append.1 hnd).2.2 w.id (List.mem_map_of_mem hm) u.id (by simp)
          exact hd (hwx.trans hu.symm)
      · rw [if_neg (by rintro ⟨w, hw', hwx⟩; cases hw'; exact hu hwx)]
        apply Option.ext
        intro w
        rw [hcoh.find_eq_iff, h.find_eq_iff, hkey]
        show (w ∈ (⟨id, dirty, buffer⟩ :: pre : List (CacheUnit D)) ∧ w.id = x) ↔ _
        rw [List.mem_cons, List.mem_append, List.mem_singleton]
        constructor
        · rintro ⟨rfl | hm, hwx⟩
          · exact absurd hwx.symm hx
          · exact ⟨Or.inl hm, hwx⟩
        · rintro ⟨hm | rfl, hwx⟩
          · exact ⟨Or.inr hm, hwx⟩
          · exact absurd hwx hu
  · rw [write_miss_room h buffer dirty hc' hfull]
    show List.find? _ (⟨id, dirty, buffer⟩ :: c.key) = _
    by_cases hx : x = id
    · subst hx; simp
    · rw [List.find?_cons_of_neg (by simpa using fun he => hx he.symm)]
      simp [hx, find]

omit h in
@[simp] theorem write_capacity : (c.write id buffer dirty).1.capacity = c.capacity := by
  unfold BlkCache.write evictUnit insertNewUnit memcpy
  split
  · simp
  · simp only
    split
    · split <;> rfl
    · rfl

end Write

end BlkCache

end NvmTree.Blk
