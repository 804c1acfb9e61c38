/-
  NvmTree.Blk.NvmeReads — what the reads of `nvme_blk_accessor` return.

  Every unit enters the cache clean, and a write that hits it leaves it clean
  (`find_write_hit`): `asynch_write_evicted` is never reached (`NvmeInv.clean`),
  and the data of a hit write live in the cache ONLY until the unit is evicted.

  Main results:
    * `reads_last_of_soundRun` — in every run whose callbacks evict only units
      that equal the device's block, every read delivers the last data written.
    * `lost_of_unsound_callback` — a callback that evicts another unit loses data.
    * `nvme_read_stale` — such a run, with a cache of one unit.
-/
import NvmTree.Blk.NvmeAccessor

namespace NvmTree.Blk

/-! ## §1. The invariant. -/

section Invariant

variable {D : Type*}

/-- What a pending command says about its call. -/
structure ParaOk (s : NvmeState D) (p : NvmeCallbackPara D) : Prop where
  evicted : p.evicted = false
  call : ∃ c ∈ s.calls, c.context = p.context ∧ c.type = p.type ∧ c.address = p.id
  read : p.type = .read →
    s.acc.device p.id = s.last p.id ∧ (p.executed = true → p.buffer = s.last p.id)

structure NvmeInv (s : NvmeState D) : Prop where
  coherent : s.acc.cache.Coherent
  capacity : 1 ≤ s.acc.cache.capacity
  /-- No unit is ever dirty. -/
  clean : ∀ a u, s.acc.cache.find a = some u → u.dirty = false
  cached : ∀ a u, s.acc.cache.find a = some u → u.data = s.last a
  stored : ∀ a, s.acc.cache.find a = none → (∀ c ∈ s.calls, c.address ≠ a) →
    s.acc.device a = s.last a
  contexts : (s.calls.map NvmeCall.context).Nodup
  addresses : (s.calls.map NvmeCall.address).Nodup
  absent : ∀ c ∈ s.calls, s.acc.cache.find c.address = none
  paras : (s.acc.pending.map NvmeCallbackPara.context).Nodup
  para : ∀ p ∈ s.acc.pending, ParaOk s p
  reads : s.ReadsLast

theorem nvmeInv_opened {capacity : Nat} (hcap : 1 ≤ capacity) (device : Int → D) :
    NvmeInv (NvmeState.opened capacity device) := by
  have hfind : ∀ a, (BlkCache.new capacity : BlkCache D).find a = none := fun a => rfl
  refine ⟨BlkCache.coherent_new capacity, hcap, ?_, ?_, ?_, ?_, ?_, ?_, ?_, ?_, ?_⟩
  · intro a u hu
    cases (hfind a).symm.trans hu
  · intro a u hu
    cases (hfind a).symm.trans hu
  · intro a _ _; rfl
  · exact List.nodup_nil
  · exact List.nodup_nil
  · intro c hc; cases hc
  · exact List.nodup_nil
  · intro p hp; cases hp
  · intro r hr; cases hr

variable {s : NvmeState D} {issued : List Nat} {lost : List (Nat × RegisteredIo)}

/-- The invariant is about the cache, the commands and the device; it does not see
the counters, the estimator or the addresses. -/
theorem NvmeInv.frame (h : NvmeInv s) {acc : NvmeBlkAccessor D} (hc : acc.cache = s.acc.cache)
    (hp : acc.pending = s.acc.pending) (hd : acc.device = s.acc.device) :
    NvmeInv { s with acc := acc } := by
  obtain ⟨cache, ready, pending, device, _, _, _, _, _, _, _, _⟩ := acc
  simp only at hc hp hd
  subst hc hp hd
  exact ⟨h.coherent, h.capacity, h.clean, h.cached, h.stored, h.contexts, h.addresses, h.absent,
    h.paras, fun p hp => ⟨(h.para p hp).evicted, (h.para p hp).call, (h.para p hp).read⟩, h.reads⟩

theorem NvmeInv.call_unique (h : NvmeInv s) {c c' : NvmeCall D} (hc : c ∈ s.calls)
    (hc' : c' ∈ s.calls) (he : c.context = c'.context ∨ c.address = c'.address) : c = c' := by
  rcases he with he | he
  · exact List.inj_on_of_nodup_map h.contexts hc hc' he
  · exact List.inj_on_of_nodup_map h.addresses hc hc' he

/-- Two pending commands on one address are one command. -/
theorem NvmeInv.para_unique (h : NvmeInv s) {p q : NvmeCallbackPara D} (hp : p ∈ s.acc.pending)
    (hq : q ∈ s.acc.pending) (he : p.id = q.id) : p = q := by
  obtain ⟨c, hc, hcp, -, hca⟩ := (h.para p hp).call
  obtain ⟨c', hc', hcq, -, hca'⟩ := (h.para q hq).call
  have : c = c' := h.call_unique hc hc' (Or.inr (by rw [hca, hca', he]))
  subst this
  exact List.inj_on_of_nodup_map h.paras hp hq (by rw [← hcp, ← hcq])

/-- A call that nobody else makes joins the calls in progress, with its command. -/
theorem submit_inv (h : NvmeInv s) {context ioId startTime : Nat} {a : Int} {type : IoType}
    {buffer : D}
    (hal : ∀ c ∈ s.calls, c.context ≠ context ∧ c.address ≠ a)
    (hmiss : s.acc.cache.find a = none) :
    NvmeInv { s with
      acc := s.acc.submit ⟨context, a, type, buffer, false, false, ioId, startTime⟩
      calls := ⟨context, type, a, buffer⟩ :: s.calls } := by
  refine ⟨h.coherent, h.capacity, h.clean, h.cached, ?_, ?_, ?_, ?_, ?_, ?_, h.reads⟩
  · intro x hx hno
    exact h.stored x hx (fun c hc => hno c (List.mem_cons_of_mem _ hc))
  · show (context :: s.calls.map NvmeCall.context).Nodup
    refine List.nodup_cons.2 ⟨?_, h.contexts⟩
    intro hm
    obtain ⟨c, hc, he⟩ := List.mem_map.1 hm
    exact (hal c hc).1 he
  · show (a :: s.calls.map NvmeCall.address).Nodup
    refine List.nodup_cons.2 ⟨?_, h.addresses⟩
    intro hm
    obtain ⟨c, hc, he⟩ := List.mem_map.1 hm
    exact (hal c hc).2 he
  · intro c hc
    rcases List.mem_cons.1 hc with rfl | hc
    · exact hmiss
    · exact h.absent c hc
  · show (List.map NvmeCallbackPara.context (s.acc.pending
      ++ [(⟨context, a, type, buffer, false, false, ioId, startTime⟩ : NvmeCallbackPara D)])).Nodup
    rw [List.map_append, List.map_cons, List.map_nil]
    refine List.nodup_append.2 ⟨h.paras, List.nodup_singleton _, ?_⟩
    intro x hx y hy
    obtain ⟨p, hp, rfl⟩ := List.mem_map.1 hx
    obtain ⟨c, hc, hcp, -, -⟩ := (h.para p hp).call
    rw [List.mem_singleton.1 hy, ← hcp]
    exact (hal c hc).1
  · intro p hp
    change p ∈ s.acc.pending ++ [_] at hp
    rcases List.mem_append.1 hp with hp | hp
    · have hok := h.para p hp
      obtain ⟨c, hc, hrest⟩ := hok.call
      exact ⟨hok.evicted, ⟨c, List.mem_cons_of_mem _ hc, hrest⟩, hok.read⟩
    · rw [List.mem_singleton.1 hp]
      refine ⟨rfl, ⟨_, List.mem_cons_self .., rfl, rfl, rfl⟩, ?_⟩
      intro _
      exact ⟨h.stored a hmiss (fun c hc => (hal c hc).2), fun hx => by cases hx⟩

/-! ## §2. Calls. -/


/-- Only the order of the cache changed, and the call is answered at once. -/
theorem asynchRead_hit (h : NvmeInv s) {context : Nat} {a : Int} {buffer : D} {status : Int}
    {u : CacheUnit D} (hu : s.acc.cache.find a = some u) :
    s.step (.asynchRead context a buffer status)
      = { s with acc := { s.acc.nextIoId with cache := s.acc.cache.get a }.ready context }.complete
          ⟨context, .read, a, u.data⟩ := by
  simp only [NvmeState.step, NvmeBlkAccessor.asynchRead, NvmeBlkAccessor.nextIoId,
    BlkCache.read_hit h.coherent hu]

theorem asynchRead_miss (h : NvmeInv s) {context : Nat} {a : Int} {buffer : D} {status : Int}
    (hu : s.acc.cache.find a = none) :
    s.step (.asynchRead context a buffer status)
      = if status = 0 then
          { s with
            acc := (s.acc.registered .read).submit ⟨context, a, .read, buffer, false, false,
              s.acc.ioIdGenerator, s.acc.ticks⟩
            calls := ⟨context, .read, a, buffer⟩ :: s.calls }
        else { s with acc := s.acc.registered .read } := by
  simp only [NvmeState.step, NvmeBlkAccessor.asynchRead, NvmeBlkAccessor.nextIoId,
    BlkCache.read_miss h.coherent hu]
  by_cases hst : status = 0
  · simp only [hst, if_true]; rfl
  · simp only [hst, if_false]; rfl

/-- Dropping the calls of a context nobody uses drops nothing. -/
theorem filter_calls_eq {context : Nat} (hal : ∀ c ∈ s.calls, c.context ≠ context) :
    s.calls.filter (fun c => decide (c.context ≠ context)) = s.calls := by
  rw [List.filter_eq_self]
  intro c hc
  simpa using hal c hc

theorem asynchRead_inv (h : NvmeInv s) {context : Nat} {a : Int} {buffer : D} {status : Int}
    (hal : s.Allowed (.asynchRead context a buffer status)) :
    NvmeInv (s.step (.asynchRead context a buffer status)) := by
  cases hu : s.acc.cache.find a with
  | none =>
      rw [asynchRead_miss h hu]
      have hreg : NvmeInv { s with acc := s.acc.registered .read } := h.frame rfl rfl rfl
      by_cases hst : status = 0
      · rw [if_pos hst]; exact submit_inv hreg hal hu
      · rw [if_neg hst]; exact hreg
  | some u =>
      rw [asynchRead_hit h hu]
      show NvmeInv ⟨{ s.acc.nextIoId with cache := s.acc.cache.get a }.ready context,
        s.calls.filter _, s.last, ⟨a, u.data, s.last a⟩ :: s.reads⟩
      rw [filter_calls_eq (fun c hc => (hal c hc).1)]
      have hfind := h.coherent.find_get a
      refine ⟨h.coherent.get a, (BlkCache.get_capacity s.acc.cache a) ▸ h.capacity, ?_, ?_, ?_,
        h.contexts, h.addresses, ?_, h.paras, ?_, ?_⟩
      · intro x w hw; exact h.clean x w ((hfind x).symm.trans hw)
      · intro x w hw; exact h.cached x w ((hfind x).symm.trans hw)
      · intro x hx; exact h.stored x ((hfind x).symm.trans hx)
      · intro c hc; exact (hfind c.address).trans (h.absent c hc)
      · intro p hp; exact ⟨(h.para p hp).evicted, (h.para p hp).call, (h.para p hp).read⟩
      · intro r hr
        rcases List.mem_cons.1 hr with rfl | hr
        · exact h.cached a u hu
        · exact h.reads r hr

theorem asynchWrite_hit (h : NvmeInv s) {context : Nat} {a : Int} {buffer : D} {status : Int}
    {u : CacheUnit D} (hu : s.acc.cache.find a = some u) :
    s.step (.asynchWrite context a buffer status)
      = { s with
          acc := { s.acc.nextIoId with cache := (s.acc.cache.write a buffer true).1 }.ready
            context }.complete ⟨context, .write, a, buffer⟩ := by
  simp only [NvmeState.step, NvmeBlkAccessor.asynchWrite, NvmeBlkAccessor.nextIoId,
    h.coherent.isCached_iff.2 ⟨u, hu⟩, if_true]

theorem asynchWrite_miss (h : NvmeInv s) {context : Nat} {a : Int} {buffer : D} {status : Int}
    (hu : s.acc.cache.find a = none) :
    s.step (.asynchWrite context a buffer status)
      = if status = 0 then
          { s with
            acc := (s.acc.registered .write).submit ⟨context, a, .write, buffer, false, false,
              s.acc.ioIdGenerator, s.acc.ticks⟩
            calls := ⟨context, .write, a, buffer⟩ :: s.calls }
        else { s with acc := s.acc.registered .write } := by
  have hc := BlkCache.isCached_of_find_none h.coherent hu
  simp only [NvmeState.step, NvmeBlkAccessor.asynchWrite, NvmeBlkAccessor.nextIoId, hc]
  by_cases hst : status = 0
  · simp only [hst, if_true]; rfl
  · simp only [hst, if_false]; rfl

/-- A hit completes in the cache, and the device is left behind. -/
theorem asynchWrite_inv (h : NvmeInv s) {context : Nat} {a : Int} {buffer : D} {status : Int}
    (hal : s.Allowed (.asynchWrite context a buffer status)) :
    NvmeInv (s.step (.asynchWrite context a buffer status)) := by
  cases hu : s.acc.cache.find a with
  | none =>
      rw [asynchWrite_miss h hu]
      have hreg : NvmeInv { s with acc := s.acc.registered .write } := h.frame rfl rfl rfl
      by_cases hst : status = 0
      · rw [if_pos hst]; exact submit_inv hreg hal hu
      · rw [if_neg hst]; exact hreg
  | some u =>
      rw [asynchWrite_hit h hu]
      have hfind := BlkCache.find_write_hit h.coherent buffer true hu
      have hcap : (s.acc.cache.write a buffer true).1.capacity = s.acc.cache.capacity :=
        BlkCache.write_capacity _ _
      show NvmeInv ⟨{ s.acc.nextIoId with cache := (s.acc.cache.write a buffer true).1 }.ready context,
        s.calls.filter _, Function.update s.last a buffer, s.reads⟩
      rw [filter_calls_eq (fun c hc => (hal c hc).1)]
      refine ⟨h.coherent.write buffer true h.capacity a, hcap ▸ h.capacity, ?_, ?_, ?_,
        h.contexts, h.addresses, ?_, h.paras, ?_, h.reads⟩
      · intro x w hw
        change (s.acc.cache.write a buffer true).1.find x = some w at hw
        rw [hfind x] at hw
        by_cases hx : x = a
        · rw [if_pos hx] at hw
          cases hw
          exact h.clean a u hu
        · rw [if_neg hx] at hw
          exact h.clean x w hw
      · intro x w hw
        change (s.acc.cache.write a buffer true).1.find x = some w at hw
        show w.data = Function.update s.last a buffer x
        rw [hfind x] at hw
        by_cases hx : x = a
        · rw [if_pos hx] at hw
          cases hw
          rw [hx, Function.update_self]
        · rw [if_neg hx] at hw
          rw [Function.update_of_ne hx]
          exact h.cached x w hw
      · intro x hx hno
        change (s.acc.cache.write a buffer true).1.find x = none at hx
        show s.acc.device x = Function.update s.last a buffer x
        rw [hfind x] at hx
        by_cases hxa : x = a
        · rw [if_pos hxa] at hx; cases hx
        · rw [if_neg hxa] at hx
          rw [Function.update_of_ne hxa]
          exact h.stored x hx hno
      · intro c hc
        show (s.acc.cache.write a buffer true).1.find c.address = none
        rw [hfind, if_neg (hal c hc).2]
        exact h.absent c hc
      · intro p hp
        obtain ⟨c, hc, hcp, hct, hca⟩ := (h.para p hp).call
        have hne : p.id ≠ a := by rw [← hca]; exact (hal c hc).2
        refine ⟨(h.para p hp).evicted, ⟨c, hc, hcp, hct, hca⟩, ?_⟩
        intro ht
        show s.acc.device p.id = Function.update s.last a buffer p.id ∧ (_ → p.buffer = Function.update s.last a buffer p.id)
        rw [Function.update_of_ne hne]
        exact (h.para p hp).read ht

/-! ## §3. The device, and the callbacks. -/

/-- A command that the device executes changes the block of its own call only. -/
theorem execute_inv (h : NvmeInv s) {i : Nat} (hal : s.Allowed (.execute i)) :
    NvmeInv (s.step (.execute i)) := by
  obtain ⟨para, hi, -⟩ := hal
  have hmem : para ∈ s.acc.pending := List.mem_of_getElem? hi
  obtain ⟨pre, post, hpend, -, hset⟩ := ListSplit.exists_split hi
  have hstep : s.step (.execute i) = { s with acc := { s.acc with
      device := (s.acc.executeCommand para).1
      pending := pre ++ (s.acc.executeCommand para).2 :: post } } := by
    simp only [NvmeState.step, hi, hset]
  have hctx : (s.acc.executeCommand para).2.context = para.context := by
    unfold NvmeBlkAccessor.executeCommand; cases para.type <;> rfl
  have hok := h.para para hmem
  obtain ⟨c, hc, hcp, hct, hca⟩ := hok.call
  -- away from the command's block the device does not change
  have hdev : ∀ x, x ≠ para.id → (s.acc.executeCommand para).1 x = s.acc.device x := by
    intro x hx
    unfold NvmeBlkAccessor.executeCommand
    cases para.type
    · rfl
    · exact Function.update_of_ne hx _ _
  rw [hstep]
  refine ⟨h.coherent, h.capacity, h.clean, h.cached, ?_, h.contexts, h.addresses, h.absent, ?_, ?_,
    h.reads⟩
  · intro x hx hno
    have hne : x ≠ para.id := fun he => hno c hc (hca.trans he.symm)
    show (s.acc.executeCommand para).1 x = s.last x
    rw [hdev x hne]
    exact h.stored x hx hno
  · have hnd := h.paras
    rw [hpend] at hnd
    simpa [hctx] using hnd
  · intro p hp
    change p ∈ pre ++ (s.acc.executeCommand para).2 :: post at hp
    by_cases hpe : p = (s.acc.executeCommand para).2
    · subst hpe
      unfold NvmeBlkAccessor.executeCommand
      cases ht : para.type with
      | read =>
          have hr := hok.read ht
          exact ⟨hok.evicted, ⟨c, hc, hcp, hct.trans ht, hca⟩, fun _ => ⟨hr.1, fun _ => hr.1⟩⟩
      | write =>
          exact ⟨hok.evicted, ⟨c, hc, hcp, hct.trans ht, hca⟩, fun ht' => by cases ht'⟩
    · have hp' : p ∈ pre ∨ p ∈ post := by
        rcases List.mem_append.1 hp with hp | hp
        · exact Or.inl hp
        · exact Or.inr ((List.mem_cons.1 hp).resolve_left hpe)
      have hpm : p ∈ s.acc.pending := by
        rw [hpend]
        rcases hp' with hp' | hp'
        · exact List.mem_append_left _ hp'
        · exact List.mem_append_right _ (List.mem_cons_of_mem _ hp')
      have hne : p.id ≠ para.id := by
        intro he
        have hpp := h.para_unique hpm hmem he
        subst hpp
        have hnd := h.paras
        rw [hpend] at hnd
        have hnd' := (List.nodup_middle.1 (by simpa using hnd))
        rw [List.nodup_cons] at hnd'
        apply hnd'.1
        rcases hp' with hp' | hp'
        · exact List.mem_append_left _ (List.mem_map_of_mem hp')
        · exact List.mem_append_right _ (List.mem_map_of_mem hp')
      refine ⟨(h.para p hpm).evicted, (h.para p hpm).call, ?_⟩
      intro ht
      show (s.acc.executeCommand para).1 p.id = _ ∧ _
      rw [hdev p.id hne]
      exact (h.para p hpm).read ht

/-- The callback finds its I/O registered and no dirty unit to evict, so its
context is made ready. -/
theorem callback_eq (h : NvmeInv s) (hacc : s.acc.Accounts issued lost) {i : Nat}
    {para : NvmeCallbackPara D} (hi : s.acc.pending[i]? = some para) (status : Int) :
    ∃ e, s.step (.callback i status)
      = { s with acc := { s.acc with
            pending := s.acc.pending.eraseIdx i
            processed := s.acc.processed + 1
            estimator := e
            cache := (s.acc.cache.write para.id para.buffer false).1 }.ready para.context }.finish
          para := by
  have hev : ∀ u, (s.acc.cache.write para.id para.buffer false).2 = some u → u.dirty = false :=
    fun u hu => h.clean u.id u (BlkCache.write_evicts h.coherent _ _ h.capacity hu).1
  obtain ⟨e, -, he, -⟩ := hacc.removeIo hi
  refine ⟨e, ?_⟩
  simp only [NvmeState.step, hi, NvmeBlkAccessor.contextCallBackFunction, removed_eq, he]
  cases hw : s.acc.cache.write para.id para.buffer false with
  | mk cache o =>
      rw [hw] at hev
      cases o with
      | none => rfl
      | some u =>
          have hd : u.dirty = false := hev u rfl
          simp [hd]

/-- The block enters the cache, and its call completes. -/
theorem callback_inv (h : NvmeInv s) (hacc : s.acc.Accounts issued lost) {i : Nat} {status : Int}
    (hal : s.Allowed (.callback i status)) (hs : s.Sound (.callback i status)) :
    NvmeInv (s.step (.callback i status)) := by
  obtain ⟨para, hi, hex⟩ := hal
  have hmem : para ∈ s.acc.pending := List.mem_of_getElem? hi
  obtain ⟨pre, post, hpend, herase, -⟩ := ListSplit.exists_split hi
  have hok := h.para para hmem
  obtain ⟨c, hc, hcp, hct, hca⟩ := hok.call
  have hmiss : s.acc.cache.find para.id = none := by rw [← hca]; exact h.absent c hc
  have hfind := BlkCache.find_write_miss h.coherent para.buffer false h.capacity hmiss
  have hcap : (s.acc.cache.write para.id para.buffer false).1.capacity = s.acc.cache.capacity :=
    BlkCache.write_capacity _ _
  have hsound : ∀ u, (s.acc.cache.write para.id para.buffer false).2 = some u →
      s.acc.device u.id = u.data ∧ s.acc.cache.find u.id = some u := by
    intro u hu
    have hfu := (BlkCache.write_evicts h.coherent _ _ h.capacity hu).1
    exact ⟨hs para hi u hu (h.clean u.id u hfu), hfu⟩
  -- the calls that go on
  have hrest : ∀ c' ∈ s.calls.filter (fun c => decide (c.context ≠ para.context)),
      c' ∈ s.calls ∧ c'.address ≠ para.id := by
    intro c' hc'
    obtain ⟨hm, hne⟩ := List.mem_filter.1 hc'
    refine ⟨hm, ?_⟩
    intro he
    have : c' = c := h.call_unique hm hc (Or.inr (he.trans hca.symm))
    rw [this, hcp] at hne
    simp at hne
  have hsub : (s.calls.filter (fun c => decide (c.context ≠ para.context))).Sublist s.calls :=
    List.filter_sublist
  -- the commands that go on
  have hnd := h.paras
  rw [hpend, List.map_append, List.map_cons] at hnd
  have hnd' := List.nodup_cons.1 (List.nodup_middle.1 hnd)
  have hothers : ∀ p ∈ pre ++ post, p ∈ s.acc.pending ∧ p.context ≠ para.context ∧ p.id ≠ para.id := by
    intro p hp
    have hpm : p ∈ s.acc.pending := by
      rw [hpend]
      rcases List.mem_append.1 hp with hp | hp
      · exact List.mem_append_left _ hp
      · exact List.mem_append_right _ (List.mem_cons_of_mem _ hp)
    have hctx : p.context ≠ para.context := by
      intro he
      apply hnd'.1
      rw [← he, ← List.map_append]
      exact List.mem_map_of_mem hp
    refine ⟨hpm, hctx, ?_⟩
    intro he
    exact hctx (congrArg NvmeCallbackPara.context (h.para_unique hpm hmem he))
  have hfindcall : s.calls.find? (fun c => decide (c.context = para.context)) = some c := by
    obtain ⟨c', hc'⟩ : ∃ c', s.calls.find? (fun c => decide (c.context = para.context)) = some c' := by
      rw [← Option.isSome_iff_exists, List.find?_isSome]
      exact ⟨c, hc, by simpa using hcp⟩
    have hm := List.mem_of_find?_eq_some hc'
    have he : c'.context = para.context := by simpa using List.find?_some hc'
    rw [hc', h.call_unique hm hc (Or.inl (he.trans hcp.symm))]
  -- everything but the data that the completed call leaves behind
  have hkey : ∀ (e : ReadyStateEstimator) (last' : Int → D) (reads' : List (ReadDone D)),
      last' para.id = para.buffer → (∀ x, x ≠ para.id → last' x = s.last x) →
      (∀ r ∈ reads', r.buffer = r.last) →
      NvmeInv (⟨{ s.acc with
          pending := s.acc.pending.eraseIdx i
          processed := s.acc.processed + 1
          estimator := e
          cache := (s.acc.cache.write para.id para.buffer false).1 }.ready para.context,
        s.calls.filter (fun c => decide (c.context ≠ para.context)), last', reads'⟩) := by
    intro e last' reads' hl1 hl2 hr
    refine ⟨h.coherent.write para.buffer false h.capacity para.id, hcap ▸ h.capacity, ?_, ?_, ?_,
      h.contexts.sublist (hsub.map _), h.addresses.sublist (hsub.map _), ?_, ?_, ?_, hr⟩
    · intro x w hw
      change (s.acc.cache.write para.id para.buffer false).1.find x = some w at hw
      rw [hfind x] at hw
      by_cases hx : x = para.id
      · rw [if_pos hx] at hw
        cases hw
        rfl
      · rw [if_neg hx] at hw
        split at hw
        · cases hw
        · exact h.clean x w hw
    · intro x w hw
      change (s.acc.cache.write para.id para.buffer false).1.find x = some w at hw
      rw [hfind x] at hw
      by_cases hx : x = para.id
      · rw [if_pos hx] at hw
        cases hw
        rw [hx]; exact hl1.symm
      · rw [if_neg hx] at hw
        split at hw
        · cases hw
        · exact (h.cached x w hw).trans (hl2 x hx).symm
    · intro x hx hno
      change (s.acc.cache.write para.id para.buffer false).1.find x = none at hx
      show s.acc.device x = last' x
      rw [hfind x] at hx
      by_cases hxp : x = para.id
      · rw [if_pos hxp] at hx; cases hx
      · rw [if_neg hxp] at hx
        rw [hl2 x hxp]
        split at hx
        · rename_i he
          obtain ⟨u, hu, rfl⟩ := he
          obtain ⟨h1, h2⟩ := hsound u hu
          rw [h1]; exact h.cached u.id u h2
        · apply h.stored x hx
          intro c' hc' he
          by_cases hcc : c'.context = para.context
          · have : c' = c := h.call_unique hc' hc (Or.inl (hcc.trans hcp.symm))
            exact hxp (by rw [← he, this, hca])
          · exact hno c' (List.mem_filter.2 ⟨hc', by simpa using hcc⟩) he
    · intro c' hc'
      obtain ⟨hm, hne⟩ := hrest c' hc'
      show (s.acc.cache.write para.id para.buffer false).1.find c'.address = none
      rw [hfind, if_neg hne]
      split
      · rfl
      · exact h.absent c' hm
    · show ((s.acc.pending.eraseIdx i).map NvmeCallbackPara.context).Nodup
      rw [herase, List.map_append]
      exact hnd'.2
    · intro p hp
      change p ∈ s.acc.pending.eraseIdx i at hp
      rw [herase] at hp
      obtain ⟨hpm, hctx, hid⟩ := hothers p hp
      have hpo := h.para p hpm
      obtain ⟨c', hc', hcp', hct', hca'⟩ := hpo.call
      refine ⟨hpo.evicted, ⟨c', List.mem_filter.2 ⟨hc', ?_⟩, hcp', hct', hca'⟩, ?_⟩
      · rw [hcp']; simpa using hctx
      · intro ht
        show s.acc.device p.id = last' p.id ∧ (_ → p.buffer = last' p.id)
        rw [hl2 p.id hid]
        exact hpo.read ht
  obtain ⟨e, hstep⟩ := callback_eq h hacc hi status
  rw [hstep]
  unfold NvmeState.finish NvmeState.complete
  simp only [hfindcall, hok.evicted]
  cases ht : c.type with
  | read =>
      have hr := hok.read (hct ▸ ht)
      simp only [hcp, hca]
      refine hkey e s.last _ (hr.2 hex).symm (fun _ _ => rfl) ?_
      intro r hr'
      rcases List.mem_cons.1 hr' with rfl | hr'
      · exact hr.2 hex
      · exact h.reads r hr'
  | write =>
      simp only [hcp, hca]
      exact hkey e _ s.reads (Function.update_self ..) (fun x hx => Function.update_of_ne hx _ _) h.reads

/-- One allowed and sound step keeps the invariant. -/
theorem nvme_step_inv (h : NvmeInv s) (hacc : s.acc.Accounts issued lost) {op : NvmeOp D}
    (hal : s.Allowed op) (hs : s.Sound op) :
    NvmeInv (s.step op) := by
  cases op with
  | asynchRead context a buffer status => exact asynchRead_inv h hal
  | asynchWrite context a buffer status => exact asynchWrite_inv h hal
  | execute i => exact execute_inv h hal
  | callback i status => exact callback_inv h hacc hal hs
  | processCompletion => exact h.frame rfl rfl rfl
  | tick cycles => exact h.frame rfl rfl rfl

theorem nvme_run_inv (ops : List (NvmeOp D)) :
    ∀ {s : NvmeState D} {issued lost}, NvmeInv s → s.acc.Accounts issued lost →
      NvmeState.Along NvmeState.Allowed s ops → NvmeState.Along NvmeState.Sound s ops →
      NvmeInv (s.run ops) := by
  induction ops with
  | nil => intro s _ _ h _ _ _; exact h
  | cons op ops ih =>
      intro s _ _ h hacc hal hs
      exact ih (nvme_step_inv h hacc hal.1 hs.1) (step_accounts hacc op) hal.2 hs.2

end Invariant

/-! ## §4. When the accessor loses no write, and when it does. -/

section Promise

variable {D : Type*}

/-- **Every completed read delivers the last data written**, in every run whose
callbacks evict only units that the device has as they are. -/
theorem reads_last_of_soundRun {capacity : Nat} (hcap : 1 ≤ capacity) (device : Int → D)
    (ops : List (NvmeOp D))
    (hal : NvmeState.Along NvmeState.Allowed (NvmeState.opened capacity device) ops)
    (hs : NvmeState.Along NvmeState.Sound (NvmeState.opened capacity device) ops) :
    ((NvmeState.opened capacity device).run ops).ReadsLast :=
  (nvme_run_inv ops (nvmeInv_opened hcap device) (accounts_opened capacity device) hal hs).reads

/-- **The condition is needed**: a callback that evicts another unit leaves the
last data of that block neither in the cache nor on the device. -/
theorem lost_of_unsound_callback {s : NvmeState D} (h : NvmeInv s) {issued : List Nat}
    {lost : List (Nat × RegisteredIo)} (hacc : s.acc.Accounts issued lost) {i : Nat} {status : Int}
    {para : NvmeCallbackPara D} (hi : s.acc.pending[i]? = some para)
    {u : CacheUnit D} (hu : (s.acc.cache.write para.id para.buffer false).2 = some u)
    (hdev : s.acc.device u.id ≠ u.data) :
    (s.step (.callback i status)).acc.cache.find u.id = none
      ∧ (s.step (.callback i status)).acc.device u.id
          ≠ (s.step (.callback i status)).last u.id := by
  obtain ⟨hfu, hne, hmiss⟩ := BlkCache.write_evicts h.coherent _ _ h.capacity hu
  have hfind := BlkCache.find_write_miss h.coherent para.buffer false h.capacity hmiss u.id
  rw [if_neg hne, if_pos ⟨u, hu, rfl⟩] at hfind
  have hmem : para ∈ s.acc.pending := List.mem_of_getElem? hi
  obtain ⟨c, hc, hcp, -, hca⟩ := (h.para para hmem).call
  have hlast : s.last u.id ≠ s.acc.device u.id := by
    rw [← h.cached u.id u hfu]; exact hdev.symm
  obtain ⟨e, hstep⟩ := callback_eq h hacc hi status
  rw [hstep]
  unfold NvmeState.finish
  cases hfc : s.calls.find? (fun c => decide (c.context = para.context)) with
  | none => exact ⟨hfind, hlast.symm⟩
  | some c' =>
      have hm := List.mem_of_find?_eq_some hfc
      have he : c'.context = para.context := by simpa using List.find?_some hfc
      have hcc : c' = c := h.call_unique hm hc (Or.inl (he.trans hcp.symm))
      subst hcc
      simp only [(h.para para hmem).evicted]
      unfold NvmeState.complete
      cases ht : c'.type with
      | read => exact ⟨hfind, hlast.symm⟩
      | write =>
          refine ⟨hfind, ?_⟩
          show s.acc.device u.id ≠ Function.update s.last c'.address para.buffer u.id
          rw [hca, Function.update_of_ne hne]
          exact hlast.symm

/-- Block 0 is loaded, written in the cache, evicted by block 1 and read again. -/
def nvmeStaleRun : List (NvmeOp Nat) :=
  [.asynchRead 0 0 7 0, .execute 0, .callback 0 0, .asynchWrite 1 0 20 0,
    .asynchRead 2 1 7 0, .execute 0, .callback 0 0,
    .asynchRead 3 0 7 0, .execute 0, .callback 0 0]

/-- **A read of old data**: the last data written to block 0 are 20, and the
last read of `nvmeStaleRun` delivers the 0 that the device still has. -/
theorem nvme_read_stale :
    NvmeState.Along NvmeState.Allowed (NvmeState.opened 1 (fun _ => 0)) nvmeStaleRun
      ∧ ¬ ((NvmeState.opened 1 (fun _ => 0)).run nvmeStaleRun).ReadsLast := by
  constructor
  · refine ⟨?_, ⟨_, rfl, rfl⟩, ⟨_, rfl, rfl⟩, ?_, ?_, ⟨_, rfl, rfl⟩, ⟨_, rfl, rfl⟩, ?_, ⟨_, rfl, rfl⟩,
      ⟨_, rfl, rfl⟩, trivial⟩ <;>
    · intro c hc
      exact absurd hc (List.not_mem_nil)
  · intro h
    have := h ⟨0, 0, 20⟩ (by decide)
    exact absurd this (by decide)

/-- The promise at work: a write that reaches the device is read back after its
block was evicted. -/
theorem reads_last_writeThrough :
    ((NvmeState.opened 1 (fun _ => 0)).run
      [.asynchWrite 0 0 20 0, .execute 0, .callback 0 0,
        .asynchRead 1 1 7 0, .execute 0, .callback 0 0,
        .asynchRead 2 0 7 0, .execute 0, .callback 0 0]).ReadsLast := by
  refine reads_last_of_soundRun (by decide) (fun _ => 0) _ ?_ ?_
  · refine ⟨?_, ⟨_, rfl, rfl⟩, ⟨_, rfl, rfl⟩, ?_, ⟨_, rfl, rfl⟩, ⟨_, rfl, rfl⟩, ?_, ⟨_, rfl, rfl⟩,
      ⟨_, rfl, rfl⟩, trivial⟩ <;>
    · intro c hc
      exact absurd hc (List.not_mem_nil)
  · refine ⟨trivial, trivial, ?_, trivial, trivial, ?_, trivial, trivial, ?_, trivial⟩
    · intro para hp u hu
      have hp' : some (⟨0, 0, .write, 20, false, true, 0, 0⟩ : NvmeCallbackPara Nat) = some para := hp
      cases hp'
      have hu' : none = some u := hu
      cases hu'
    · intro para hp u hu _
      have hp' : some (⟨1, 1, .read, 0, false, true, 1, 0⟩ : NvmeCallbackPara Nat) = some para := hp
      cases hp'
      have hu' : some (⟨0, false, 20⟩ : CacheUnit Nat) = some u := hu
      cases hu'
      rfl
    · intro para hp u hu _
      have hp' : some (⟨2, 0, .read, 20, false, true, 2, 0⟩ : NvmeCallbackPara Nat) = some para := hp
      cases hp'
      have hu' : some (⟨1, false, 0⟩ : CacheUnit Nat) = some u := hu
      cases hu'
      rfl

end Promise

end NvmTree.Blk
