/-
  NvmTree.Blk.FileAccessor — `file_blk_accessor` under sequential calls.

  The accessor hands out block addresses, and serves `read` and `write` from
  the LRU cache in front of the file.  A `Client` records what the caller may
  rely on: which addresses are allocated and what was last written to each
  since its allocation.

  What the code does:  `read` writes EVERY evicted unit back, `write` only the
  units marked dirty.  A write that hits a clean unit leaves it marked clean
  (`find_write_hit`), so its data are lost if a later `write` evicts it.

  Main results:
    * `readsLast_of_soundRun` — along every run whose `write`s never evict such
      a unit, every read returns the last data written.
    * `lost_of_not_sound` — the first `write` that does evict one loses the data.
    * `file_read_stale` — a run of seven calls, capacity 1, that reads old data.
-/
import NvmTree.Blk.Cache
import Mathlib.Algebra.Group.Int.Defs
import Mathlib.Algebra.Group.Nat.Defs
import Mathlib.Logic.Function.Basic

namespace NvmTree.Blk

/-! ## §1. The accessor. -/

/-- `uint32_t` arithmetic of `cursor_`. -/
def wrap32 (n : Nat) : Nat := n % 2 ^ 32

structure FileBlkAccessor (D : Type*) where
  freedBlkAddresses : List Int
  cursor : Nat
  cache : BlkCache D
  /-- The block that `pread` returns at each address. -/
  file : Int → D
  /-- An assertion has failed, and the process with it. -/
  aborted : Bool

namespace FileBlkAccessor

variable {D : Type*}

/-- A freshly opened accessor; the content of the file is arbitrary. -/
def opened (capacity : Nat) (file : Int → D) : FileBlkAccessor D :=
  ⟨[], 0, BlkCache.new capacity, file, false⟩

/-- `allocate` may return any freed address (`unordered_set::begin`): `pick`
says which. -/
def allocate (a : FileBlkAccessor D) (pick : Nat) : FileBlkAccessor D × Int :=
  if h : a.freedBlkAddresses = [] then
    ({ a with cursor := wrap32 (a.cursor + 1) }, (a.cursor : Int))
  else
    let addr := a.freedBlkAddresses.get ⟨pick % a.freedBlkAddresses.length,
      Nat.mod_lt _ (List.length_pos_iff.2 h)⟩
    ({ a with freedBlkAddresses := a.freedBlkAddresses.filter (fun x => decide (x ≠ addr)) }, addr)

def deallocate (a : FileBlkAccessor D) (address : Int) : FileBlkAccessor D :=
  if (a.cursor : Int) = address - 1 then
    { a with cursor := wrap32 (a.cursor + (2 ^ 32 - 1)) }
  else if address ∈ a.freedBlkAddresses then a
  else { a with freedBlkAddresses := address :: a.freedBlkAddresses }

def isAddressValid (a : FileBlkAccessor D) (address : Int) : Bool :=
  decide (address < (a.cursor : Int)) && decide (address ∉ a.freedBlkAddresses)

/-- `pwrite` of an evicted unit; at a negative offset it fails, which is only
printed. -/
def pwrite (a : FileBlkAccessor D) (unit : CacheUnit D) : FileBlkAccessor D :=
  if unit.id < 0 then a
  else { a with file := Function.update a.file unit.id unit.data }

/-- `read` returns what it leaves in the buffer (`none`: the buffer is not
touched and the call returns 0). -/
def read (a : FileBlkAccessor D) (address : Int) : FileBlkAccessor D × Option D :=
  if a.isAddressValid address then
    match a.cache.read address with
    | (cache, some d) => ({ a with cache := cache }, some d)
    | (cache, none) =>
        -- `pread` fails at a negative offset, and `assert(false)` follows
        if address < 0 then ({ a with cache := cache, aborted := true }, none)
        else
          let d := a.file address
          match cache.write address d false with
          -- the read path writes the evicted unit back without looking at its flag
          | (cache, some unit) => ({ a with cache := cache }.pwrite unit, some d)
          | (cache, none) => ({ a with cache := cache }, some d)
  else (a, none)

/-- `write` returns whether the address was accepted. -/
def write (a : FileBlkAccessor D) (address : Int) (buffer : D) : FileBlkAccessor D × Bool :=
  if a.isAddressValid address then
    match a.cache.write address buffer true with
    | (cache, some unit) =>
        if unit.dirty then ({ a with cache := cache }.pwrite unit, true)
        else ({ a with cache := cache }, true)
    | (cache, none) => ({ a with cache := cache }, true)
  else (a, false)

end FileBlkAccessor

/-! ## §2. Runs of calls, and what the caller may rely on. -/

inductive FileOp (D : Type*) where
  | allocate (pick : Nat)
  | deallocate (address : Int)
  | read (address : Int)
  | write (address : Int) (buffer : D)
  deriving Repr, DecidableEq

/-- The caller's view: the allocated addresses, and the data of the last
`write` to each since it was allocated. -/
structure Client (D : Type*) where
  live : List Int
  last : Int → Option D

structure FileState (D : Type*) where
  acc : FileBlkAccessor D
  client : Client D

namespace FileState

variable {D : Type*}

def opened (capacity : Nat) (file : Int → D) : FileState D :=
  ⟨FileBlkAccessor.opened capacity file, ⟨[], fun _ => none⟩⟩

/-- One call, and the caller's view after it. -/
def step (s : FileState D) : FileOp D → FileState D
  | .allocate pick =>
      ⟨(s.acc.allocate pick).1,
        ⟨(s.acc.allocate pick).2 :: s.client.live,
          Function.update s.client.last (s.acc.allocate pick).2 none⟩⟩
  | .deallocate a =>
      ⟨s.acc.deallocate a,
        ⟨s.client.live.filter (fun x => decide (x ≠ a)), s.client.last⟩⟩
  | .read a => ⟨(s.acc.read a).1, s.client⟩
  | .write a d =>
      ⟨(s.acc.write a d).1, ⟨s.client.live, Function.update s.client.last a (some d)⟩⟩

/-- Only allocated addresses are accessed, and an address is written before it
is read after each allocation. -/
def Allowed (s : FileState D) : FileOp D → Prop
  | .allocate _ => True
  | .deallocate a => a ∈ s.client.live
  | .read a => a ∈ s.client.live ∧ s.client.last a ≠ none
  | .write a _ => a ∈ s.client.live

/-- The condition on the state before a call: `allocate` does not wrap
`cursor_` around, and `write` does not evict an allocated block that is marked
clean while its last data are not in the file. -/
def Sound (s : FileState D) : FileOp D → Prop
  | .allocate _ => s.acc.freedBlkAddresses = [] → s.acc.cursor + 1 < 2 ^ 32
  | .write a d => ∀ u, (s.acc.cache.write a d true).2 = some u → u.dirty = false →
      u.id ∈ s.client.live → s.client.last u.id = some u.data → s.acc.file u.id = u.data
  | _ => True

def run (s : FileState D) (ops : List (FileOp D)) : FileState D := ops.foldl step s

/-- `P` holds before every call of the run. -/
def Along (P : FileState D → FileOp D → Prop) : FileState D → List (FileOp D) → Prop
  | _, [] => True
  | s, op :: ops => P s op ∧ Along P (s.step op) ops

/-- Every read the caller may make returns the last data written. -/
def ReadsLast (s : FileState D) : Prop :=
  ∀ a d, a ∈ s.client.live → s.client.last a = some d → (s.acc.read a).2 = some d

end FileState

/-! ## §3. The invariant: the last data are in the cache, or in the file. -/

section Invariant

variable {D : Type*}

structure FileInv (s : FileState D) : Prop where
  coherent : s.acc.cache.Coherent
  capacity : 1 ≤ s.acc.cache.capacity
  cursor_lt : s.acc.cursor < 2 ^ 32
  nonneg : ∀ a, a ∈ s.client.live ∨ a ∈ s.acc.freedBlkAddresses → 0 ≤ a
  freed : ∀ a ∈ s.acc.freedBlkAddresses, a < (s.acc.cursor : Int)
  live : ∀ a ∈ s.client.live, a < (s.acc.cursor : Int) ∧ a ∉ s.acc.freedBlkAddresses
  cached : ∀ a ∈ s.client.live, ∀ d, s.client.last a = some d →
    ∀ u, s.acc.cache.find a = some u → u.data = d
  stored : ∀ a ∈ s.client.live, ∀ d, s.client.last a = some d →
    s.acc.cache.find a = none → s.acc.file a = d

variable {s : FileState D}

theorem FileInv.valid (h : FileInv s) {a : Int} (ha : a ∈ s.client.live) :
    s.acc.isAddressValid a = true := by
  unfold FileBlkAccessor.isAddressValid
  simp [h.live a ha]

theorem fileInv_opened {capacity : Nat} (hcap : 1 ≤ capacity) (file : Int → D) :
    FileInv (FileState.opened capacity file) := by
  refine ⟨BlkCache.coherent_new capacity, hcap, Nat.two_pow_pos 32, ?_, ?_, ?_, ?_, ?_⟩
  · rintro a (ha | ha) <;> cases ha
  · intro a ha; cases ha
  · intro a ha; cases ha
  · intro a ha; cases ha
  · intro a ha; cases ha

/-- What a read of a live address returns. -/
theorem read_snd_live (h : FileInv s) {a : Int} (ha : a ∈ s.client.live) :
    (s.acc.read a).2
      = some (match s.acc.cache.find a with | some u => u.data | none => s.acc.file a) := by
  unfold FileBlkAccessor.read
  rw [if_pos (h.valid ha)]
  have hr := BlkCache.read_snd h.coherent a
  cases hread : s.acc.cache.read a with
  | mk cache o =>
      rw [hread] at hr
      simp only at hr
      subst hr
      cases hf : s.acc.cache.find a with
      | some u => rfl
      | none =>
          simp only [Option.map_none]
          rw [if_neg (Int.not_lt.2 (h.nonneg a (Or.inl ha)))]
          cases cache.write a (s.acc.file a) false with
          | mk cache' o' => cases o' <;> rfl

/-- Writing a unit back keeps the invariant if it is there afterwards; a unit with
a negative id, for which `pwrite` fails, belongs to no live block. -/
theorem FileInv.pwrite {acc : FileBlkAccessor D} {client : Client D} {u : CacheUnit D}
    (h : FileInv ⟨{ acc with file := Function.update acc.file u.id u.data }, client⟩) :
    FileInv ⟨acc.pwrite u, client⟩ := by
  unfold FileBlkAccessor.pwrite
  split
  · rename_i hneg
    refine ⟨h.coherent, h.capacity, h.cursor_lt, h.nonneg, h.freed, h.live, h.cached, ?_⟩
    intro a ha d hd hu
    have hne : a ≠ u.id := by
      rintro rfl
      exact absurd (h.nonneg _ (Or.inl ha)) (Int.not_le.2 hneg)
    rw [← h.stored a ha d hd hu]
    exact (Function.update_of_ne hne ..).symm
  · exact h

theorem FileInv.readsLast (h : FileInv s) : s.ReadsLast := by
  intro a d ha hd
  rw [read_snd_live h ha]
  cases hf : s.acc.cache.find a with
  | some u => simp only; rw [h.cached a ha d hd u hf]
  | none => simp only; rw [h.stored a ha d hd hf]

/-! ## §4. Each call keeps the invariant. -/

theorem allocate_inv (h : FileInv s) (pick : Nat) (hs : s.Sound (.allocate pick)) :
    FileInv (s.step (.allocate pick)) := by
  by_cases hf : s.acc.freedBlkAddresses = []
  · have hlt := hs hf
    have hal : s.acc.allocate pick
        = ({ s.acc with cursor := s.acc.cursor + 1 }, (s.acc.cursor : Int)) := by
      unfold FileBlkAccessor.allocate wrap32
      rw [dif_pos hf, Nat.mod_eq_of_lt hlt]
    show FileInv ⟨(s.acc.allocate pick).1, ⟨(s.acc.allocate pick).2 :: s.client.live,
      Function.update s.client.last (s.acc.allocate pick).2 none⟩⟩
    rw [hal]
    refine ⟨h.coherent, h.capacity, hlt, ?_, ?_, ?_, ?_, ?_⟩
    · rintro a (ha | ha)
      · rcases List.mem_cons.1 ha with rfl | ha
        · exact Int.natCast_nonneg _
        · exact h.nonneg a (Or.inl ha)
      · exact h.nonneg a (Or.inr ha)
    · intro a ha
      have := h.freed a ha
      show a < ((s.acc.cursor + 1 : Nat) : Int)
      omega
    · intro a ha
      show a < ((s.acc.cursor + 1 : Nat) : Int) ∧ a ∉ s.acc.freedBlkAddresses
      rcases List.mem_cons.1 ha with rfl | ha
      · rw [hf]; exact ⟨by omega, by simp⟩
      · have := h.live a ha
        exact ⟨by omega, this.2⟩
    · intro a ha d hd u hu
      by_cases hne : a = (s.acc.cursor : Int)
      · subst hne; simp at hd
      · refine h.cached a ?_ d ?_ u hu
        · exact (List.mem_cons.1 ha).resolve_left hne
        · simpa [Function.update_of_ne hne] using hd
    · intro a ha d hd hu
      by_cases hne : a = (s.acc.cursor : Int)
      · subst hne; simp at hd
      · refine h.stored a ?_ d ?_ hu
        · exact (List.mem_cons.1 ha).resolve_left hne
        · simpa [Function.update_of_ne hne] using hd
  · -- an address comes back from the freed set
    obtain ⟨addr, hmem, hal⟩ : ∃ addr ∈ s.acc.freedBlkAddresses, s.acc.allocate pick
        = ({ s.acc with freedBlkAddresses :=
              s.acc.freedBlkAddresses.filter (fun x => decide (x ≠ addr)) }, addr) := by
      unfold FileBlkAccessor.allocate
      rw [dif_neg hf]
      exact ⟨_, List.get_mem _ _, rfl⟩
    show FileInv ⟨(s.acc.allocate pick).1, ⟨(s.acc.allocate pick).2 :: s.client.live,
      Function.update s.client.last (s.acc.allocate pick).2 none⟩⟩
    rw [hal]
    refine ⟨h.coherent, h.capacity, h.cursor_lt, ?_, ?_, ?_, ?_, ?_⟩
    · rintro a (ha | ha)
      · rcases List.mem_cons.1 ha with rfl | ha
        · exact h.nonneg _ (Or.inr hmem)
        · exact h.nonneg a (Or.inl ha)
      · exact h.nonneg a (Or.inr (List.mem_of_mem_filter ha))
    · intro a ha
      exact h.freed a (List.mem_of_mem_filter ha)
    · intro a ha
      rcases List.mem_cons.1 ha with rfl | ha
      · exact ⟨h.freed _ hmem, by simp⟩
      · have := h.live a ha
        exact ⟨this.1, fun hm => this.2 (List.mem_of_mem_filter hm)⟩
    · intro a ha d hd u hu
      by_cases hne : a = addr
      · subst hne; simp at hd
      · refine h.cached a ?_ d ?_ u hu
        · exact (List.mem_cons.1 ha).resolve_left hne
        · simpa [Function.update_of_ne hne] using hd
    · intro a ha d hd hu
      by_cases hne : a = addr
      · subst hne; simp at hd
      · refine h.stored a ?_ d ?_ hu
        · exact (List.mem_cons.1 ha).resolve_left hne
        · simpa [Function.update_of_ne hne] using hd

theorem deallocate_inv (h : FileInv s) {a : Int} (ha : a ∈ s.client.live) :
    FileInv (s.step (.deallocate a)) := by
  have hlive := h.live a ha
  have hde : s.acc.deallocate a
      = { s.acc with freedBlkAddresses := a :: s.acc.freedBlkAddresses } := by
    unfold FileBlkAccessor.deallocate
    rw [if_neg (by omega), if_neg hlive.2]
  show FileInv ⟨s.acc.deallocate a, ⟨_, s.client.last⟩⟩
  rw [hde]
  have hsub : ∀ x ∈ s.client.live.filter (fun x => decide (x ≠ a)), x ∈ s.client.live ∧ x ≠ a := by
    intro x hx
    simpa using List.mem_filter.1 hx
  refine ⟨h.coherent, h.capacity, h.cursor_lt, ?_, ?_, ?_, ?_, ?_⟩
  · rintro x (hx | hx)
    · exact h.nonneg x (Or.inl (hsub x hx).1)
    · rcases List.mem_cons.1 hx with rfl | hx
      · exact h.nonneg x (Or.inl ha)
      · exact h.nonneg x (Or.inr hx)
  · intro x hx
    rcases List.mem_cons.1 hx with rfl | hx
    · exact hlive.1
    · exact h.freed x hx
  · intro x hx
    obtain ⟨hx, hne⟩ := hsub x hx
    have := h.live x hx
    refine ⟨this.1, ?_⟩
    intro hm
    rcases List.mem_cons.1 hm with rfl | hm
    · exact hne rfl
    · exact this.2 hm
  · intro x hx
    exact h.cached x (hsub x hx).1
  · intro x hx
    exact h.stored x (hsub x hx).1

/-- Inserting the block just read from the file, and writing the evicted unit
back, keeps the invariant. -/
theorem read_inv (h : FileInv s) {a : Int} (ha : a ∈ s.client.live) :
    FileInv (s.step (.read a)) := by
  show FileInv ⟨(s.acc.read a).1, s.client⟩
  unfold FileBlkAccessor.read
  rw [if_pos (h.valid ha)]
  have hr := BlkCache.read_snd h.coherent a
  have hcoh := h.coherent.read a
  have hfind := BlkCache.find_read h.coherent a
  have hcap := BlkCache.read_capacity s.acc.cache a
  cases hread : s.acc.cache.read a with
  | mk cache o =>
  rw [hread] at hr hcoh hfind hcap
  simp only at hr hcoh hfind hcap
  cases o with
  | some d =>
      refine ⟨hcoh, hcap ▸ h.capacity, h.cursor_lt, h.nonneg, h.freed, h.live, ?_, ?_⟩
      · intro x hx d' hd' u hu
        exact h.cached x hx d' hd' u ((hfind x).symm.trans hu)
      · intro x hx d' hd' hu
        exact h.stored x hx d' hd' ((hfind x).symm.trans hu)
  | none =>
      have hmiss : cache.find a = none := by
        rw [hfind a]
        exact Option.map_eq_none_iff.1 hr.symm
      have hcap' : 1 ≤ cache.capacity := hcap ▸ h.capacity
      have hcoh' := hcoh.write (s.acc.file a) false hcap' a
      have hfind' := BlkCache.find_write_miss hcoh (s.acc.file a) false hcap' hmiss
      have hcapw : (cache.write a (s.acc.file a) false).1.capacity = cache.capacity :=
        BlkCache.write_capacity _ _
      have hev : ∀ u, (cache.write a (s.acc.file a) false).2 = some u →
          cache.find u.id = some u ∧ u.id ≠ a ∧ cache.find a = none :=
        fun u hu => BlkCache.write_evicts hcoh _ _ hcap' hu
      simp only
      cases hw : cache.write a (s.acc.file a) false with
      | mk cache' o' =>
      rw [hw] at hcoh' hfind' hcapw hev
      simp only at hcoh' hfind' hcapw hev
      have hcached : ∀ x ∈ s.client.live, ∀ d, s.client.last x = some d →
          ∀ u, cache'.find x = some u → u.data = d := by
        intro x hx d hd u hu
        rw [hfind' x] at hu
        by_cases hxa : x = a
        · subst hxa
          rw [if_pos rfl] at hu
          cases hu
          exact h.stored x hx d hd (by rw [← hfind x]; exact hmiss)
        · rw [if_neg hxa] at hu
          split at hu
          · cases hu
          · exact h.cached x hx d hd u ((hfind x).symm.trans hu)
      rw [if_neg (Int.not_lt.2 (h.nonneg a (Or.inl ha)))]
      cases o' with
      | some u =>
          obtain ⟨hfu, hne, -⟩ := hev u rfl
          refine FileInv.pwrite
            ⟨hcoh', hcapw ▸ hcap', h.cursor_lt, h.nonneg, h.freed, h.live, hcached, ?_⟩
          intro x hx d hd hu
          show Function.update s.acc.file u.id u.data x = d
          by_cases hxu : x = u.id
          · subst hxu
            rw [Function.update_self]
            exact h.cached u.id hx d hd u ((hfind u.id).symm.trans hfu)
          · rw [Function.update_of_ne hxu]
            change cache'.find x = none at hu
            rw [hfind' x] at hu
            split at hu
            · cases hu
            · rw [if_neg (by rintro ⟨w, hw', hwx⟩; cases hw'; exact hxu hwx.symm)] at hu
              exact h.stored x hx d hd ((hfind x).symm.trans hu)
      | none =>
          refine ⟨hcoh', hcapw ▸ hcap', h.cursor_lt, h.nonneg, h.freed, h.live, hcached, ?_⟩
          intro x hx d hd hu
          change cache'.find x = none at hu
          rw [hfind' x] at hu
          split at hu
          · cases hu
          · rw [if_neg (by rintro ⟨w, hw', -⟩; cases hw')] at hu
            exact h.stored x hx d hd ((hfind x).symm.trans hu)

/-- A hit puts the new data into the cache; a miss adds the block, and the unit
it evicts has its data in the file afterwards: written back if it is dirty, by
`Sound` if it is not. -/
theorem write_inv (h : FileInv s) {a : Int} {d : D} (ha : a ∈ s.client.live)
    (hs : s.Sound (.write a d)) : FileInv (s.step (.write a d)) := by
  show FileInv ⟨(s.acc.write a d).1, ⟨s.client.live, Function.update s.client.last a (some d)⟩⟩
  unfold FileBlkAccessor.write
  rw [if_pos (h.valid ha)]
  have hcoh := h.coherent.write d true h.capacity a
  have hcapw : (s.acc.cache.write a d true).1.capacity = s.acc.cache.capacity :=
    BlkCache.write_capacity _ _
  -- what the caller last wrote to another address is what it was
  have hother : ∀ {x d'}, x ≠ a → Function.update s.client.last a (some d) x = some d' →
      s.client.last x = some d' := by
    intro x d' hx hd'
    rwa [Function.update_of_ne hx] at hd'
  cases hf : s.acc.cache.find a with
  | some w =>
      have hfind := BlkCache.find_write_hit h.coherent d true hf
      have hnone := BlkCache.write_hit_none d true (h.coherent.isCached_iff.2 ⟨w, hf⟩)
      cases hw : s.acc.cache.write a d true with
      | mk cache o =>
      rw [hw] at hcoh hfind hnone hcapw
      simp only at hcoh hfind hnone hcapw
      subst hnone
      refine ⟨hcoh, hcapw ▸ h.capacity, h.cursor_lt, h.nonneg, h.freed, h.live, ?_, ?_⟩
      · intro x hx d' hd' u hu
        change cache.find x = some u at hu
        rw [hfind x] at hu
        by_cases hxa : x = a
        · subst hxa
          rw [if_pos rfl] at hu
          cases hu
          simpa using hd'
        · rw [if_neg hxa] at hu
          exact h.cached x hx d' (hother hxa hd') u hu
      · intro x hx d' hd' hu
        change cache.find x = none at hu
        rw [hfind x] at hu
        by_cases hxa : x = a
        · rw [if_pos hxa] at hu; cases hu
        · rw [if_neg hxa] at hu
          exact h.stored x hx d' (hother hxa hd') hu
  | none =>
      have hfind := BlkCache.find_write_miss h.coherent d true h.capacity hf
      have hev : ∀ u, (s.acc.cache.write a d true).2 = some u →
          s.acc.cache.find u.id = some u ∧ u.id ≠ a ∧ s.acc.cache.find a = none :=
        fun u hu => BlkCache.write_evicts h.coherent _ _ h.capacity hu
      have hsound : ∀ u, (s.acc.cache.write a d true).2 = some u → u.dirty = false →
          u.id ∈ s.client.live → s.client.last u.id = some u.data →
          s.acc.file u.id = u.data := hs
      cases hw : s.acc.cache.write a d true with
      | mk cache o =>
      rw [hw] at hcoh hfind hev hsound hcapw
      simp only at hcoh hfind hev hsound hcapw
      have hcached : ∀ x ∈ s.client.live, ∀ d',
          Function.update s.client.last a (some d) x = some d' →
          ∀ u, cache.find x = some u → u.data = d' := by
        intro x hx d' hd' u hu
        rw [hfind x] at hu
        by_cases hxa : x = a
        · subst hxa
          rw [if_pos rfl] at hu
          cases hu
          simpa using hd'
        · rw [if_neg hxa] at hu
          split at hu
          · cases hu
          · exact h.cached x hx d' (hother hxa hd') u hu
      -- an address that is no longer cached was not cached before, or is the evicted one
      have hgone : ∀ x, cache.find x = none → x ≠ a ∧
          ((∃ u, o = some u ∧ u.id = x) ∨ s.acc.cache.find x = none) := by
        intro x hu
        rw [hfind x] at hu
        by_cases hxa : x = a
        · rw [if_pos hxa] at hu; cases hu
        · rw [if_neg hxa] at hu
          refine ⟨hxa, ?_⟩
          split at hu
          · rename_i he; exact Or.inl he
          · exact Or.inr hu
      cases o with
      | none =>
          refine ⟨hcoh, hcapw ▸ h.capacity, h.cursor_lt, h.nonneg, h.freed, h.live, hcached, ?_⟩
          intro x hx d' hd' hu
          obtain ⟨hxa, ⟨u, hu', -⟩ | hxn⟩ := hgone x hu
          · cases hu'
          · exact h.stored x hx d' (hother hxa hd') hxn
      | some u =>
          obtain ⟨hfu, hne, -⟩ := hev u rfl
          by_cases hdirty : u.dirty = true
          · simp only [hdirty, if_true]
            refine FileInv.pwrite
              ⟨hcoh, hcapw ▸ h.capacity, h.cursor_lt, h.nonneg, h.freed, h.live, hcached, ?_⟩
            intro x hx d' hd' hu
            show Function.update s.acc.file u.id u.data x = d'
            obtain ⟨hxa, hcase⟩ := hgone x hu
            by_cases hxu : x = u.id
            · subst hxu
              rw [Function.update_self]
              exact h.cached u.id hx d' (hother hxa hd') u hfu
            · rw [Function.update_of_ne hxu]
              rcases hcase with ⟨w, hw', hwx⟩ | hxn
              · cases hw'; exact absurd hwx.symm hxu
              · exact h.stored x hx d' (hother hxa hd') hxn
          · simp only [hdirty]
            refine ⟨hcoh, hcapw ▸ h.capacity, h.cursor_lt, h.nonneg, h.freed, h.live, hcached, ?_⟩
            intro x hx d' hd' hu
            show s.acc.file x = d'
            obtain ⟨hxa, hcase⟩ := hgone x hu
            rcases hcase with ⟨w, hw', hwx⟩ | hxn
            · cases hw'
              subst hwx
              have hdata := h.cached u.id hx d' (hother hxa hd') u hfu
              rw [hsound u rfl (by simpa using hdirty) hx (by rw [hdata]; exact hother hxa hd')]
              exact hdata
            · exact h.stored x hx d' (hother hxa hd') hxn

/-- One allowed and sound call keeps the invariant. -/
theorem step_inv (h : FileInv s) {op : FileOp D} (hal : s.Allowed op) (hs : s.Sound op) :
    FileInv (s.step op) := by
  cases op with
  | allocate pick => exact allocate_inv h pick hs
  | deallocate a => exact deallocate_inv h hal
  | read a => exact read_inv h hal.1
  | write a d => exact write_inv h hal hs

theorem run_inv (ops : List (FileOp D)) :
    ∀ {s : FileState D}, FileInv s → FileState.Along FileState.Allowed s ops →
      FileState.Along FileState.Sound s ops → FileInv (s.run ops) := by
  induction ops with
  | nil => intro s h _ _; exact h
  | cons op ops ih =>
      intro s h hal hs
      exact ih (step_inv h hal.1 hs.1) hal.2 hs.2

end Invariant

/-! ## §5. When the accessor keeps its promise, and when it does not. -/

section Promise

variable {D : Type*}

/-- **Every read returns the last data written**, along every run of allowed
calls whose `write`s never evict a live block that is marked clean and not yet
in the file. -/
theorem readsLast_of_soundRun {capacity : Nat} (hcap : 1 ≤ capacity) (file : Int → D)
    (ops : List (FileOp D))
    (hal : FileState.Along FileState.Allowed (FileState.opened capacity file) ops)
    (hs : FileState.Along FileState.Sound (FileState.opened capacity file) ops) :
    ((FileState.opened capacity file).run ops).ReadsLast :=
  (run_inv ops (fileInv_opened hcap file) hal hs).readsLast

/-- **The condition is needed**: the first `write` that evicts such a block
loses its data, and the next read of it returns what the file had. -/
theorem lost_of_not_sound {s : FileState D} (h : FileInv s) {a : Int} {d : D}
    (ha : a ∈ s.client.live) (hns : ¬ s.Sound (.write a d)) :
    ¬ (s.step (.write a d)).ReadsLast := by
  have hns' : ∃ u, (s.acc.cache.write a d true).2 = some u ∧ u.dirty = false ∧
      u.id ∈ s.client.live ∧ s.client.last u.id = some u.data ∧ s.acc.file u.id ≠ u.data := by
    unfold FileState.Sound at hns
    push Not at hns
    exact hns
  obtain ⟨u, hev, hclean, hlive, hlast, hfile⟩ := hns'
  obtain ⟨-, hne, hmiss⟩ := BlkCache.write_evicts h.coherent _ _ h.capacity hev
  have hfind := BlkCache.find_write_miss h.coherent d true h.capacity hmiss u.id
  rw [if_neg hne, if_pos ⟨u, hev, rfl⟩] at hfind
  have hstep : (s.step (.write a d)).acc = { s.acc with cache := (s.acc.cache.write a d true).1 } := by
    show (s.acc.write a d).1 = _
    unfold FileBlkAccessor.write
    rw [if_pos (h.valid ha)]
    cases hw : s.acc.cache.write a d true with
    | mk cache o =>
        rw [hw] at hev
        simp only at hev
        subst hev
        simp [hclean]
  intro hr
  have hread := hr u.id u.data hlive (by
    show Function.update s.client.last a (some d) u.id = some u.data
    rwa [Function.update_of_ne hne])
  -- the block is in no cache any more, so the read goes to the file
  have hvalid : (s.step (.write a d)).acc.isAddressValid u.id = true := by
    rw [hstep]; exact h.valid hlive
  have hcoh := h.coherent.write d true h.capacity a
  unfold FileBlkAccessor.read at hread
  rw [if_pos hvalid, hstep] at hread
  have hsnd := BlkCache.read_snd hcoh u.id
  rw [hfind] at hsnd
  cases hrd : (s.acc.cache.write a d true).1.read u.id with
  | mk cache o =>
      rw [hrd] at hsnd
      simp only [Option.map_none] at hsnd
      subst hsnd
      simp only [hrd] at hread
      cases hw2 : cache.write u.id (s.acc.file u.id) false with
      | mk cache' o' =>
          have hpos : ¬ u.id < 0 := Int.not_lt.2 (h.nonneg u.id (Or.inl hlive))
          simp only [hw2, if_neg hpos] at hread
          cases o' <;> exact hfile (by simpa using hread)

/-- Two blocks through a cache of one unit: the second write to block 0 hits it
while it is clean, and the write to block 1 evicts it. -/
def staleRun : List (FileOp Nat) :=
  [.allocate 0, .allocate 0, .write 0 10, .write 1 11, .read 0, .write 0 20, .write 1 21]

/-- **A read of old data**: after `staleRun` the last data written to block 0
are 20, and `read` returns 10. -/
theorem file_read_stale :
    FileState.Along FileState.Allowed (FileState.opened 1 (fun _ => 0)) staleRun
      ∧ (0 : Int) ∈ ((FileState.opened 1 (fun _ => 0)).run staleRun).client.live
      ∧ ((FileState.opened 1 (fun _ => 0)).run staleRun).client.last 0 = some 20
      ∧ (((FileState.opened 1 (fun _ => 0)).run staleRun).acc.read 0).2 = some 10 := by
  refine ⟨⟨trivial, trivial, ?_, ?_, ?_, ?_, ?_, trivial⟩, ?_, ?_, ?_⟩
  · show (0 : Int) ∈ _; decide
  · show (1 : Int) ∈ _; decide
  · exact ⟨by decide, by decide⟩
  · show (0 : Int) ∈ _; decide
  · show (1 : Int) ∈ _; decide
  · decide
  · decide
  · decide

/-- The promise at work: a write-back through the same cache of one unit. -/
theorem readsLast_writeBack :
    ((FileState.opened 1 (fun _ => 0)).run
      [.allocate 0, .allocate 0, .write 0 10, .write 1 11]).ReadsLast := by
  refine readsLast_of_soundRun (by decide) (fun _ => 0) _ ?_ ?_
  · refine ⟨trivial, trivial, ?_, ?_, trivial⟩
    · show (0 : Int) ∈ _; decide
    · show (1 : Int) ∈ _; decide
  · refine ⟨fun _ => by decide, fun _ => by decide, ?_, ?_, trivial⟩
    · intro u hu
      have hu' : none = some u := hu
      cases hu'
    · intro u hu hclean
      have hu' : some (⟨0, true, 10⟩ : CacheUnit Nat) = some u := hu
      cases hu'
      exact absurd hclean (by decide)

end Promise

end NvmTree.Blk
