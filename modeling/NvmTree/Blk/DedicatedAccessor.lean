/-
  NvmTree.Blk.DedicatedAccessor — `nvme_blk_thread_dedicated_accessor`.

  Every thread does its own I/O on a queue pair of its own and waits for it; the
  cache is shared under a lock.  A read looks into the cache, and on a miss reads the
  block and puts it into the cache; a write drops the unit and writes the block.  A
  thread is between two of these steps at its `Stage`; what happens under one lock,
  or in one command, is one step.

  Main results:
    * `DedicatedState.run_inv` — the invariant after every run.
    * `writeThrough_coherent`  — both write-through accessors, after every run.
-/
import NvmTree.Blk.SharedAccessor

namespace NvmTree.Blk

/-! ## §1. The code. -/

/-- Where a thread is in `read` or `write`. -/
inductive Stage (D : Type*) where
  | called
  /-- A read has missed the cache, … -/
  | missed
  /-- … and has read the block. -/
  | loaded
  /-- A write has dropped the unit, … -/
  | invalidated
  /-- … and has written the block. -/
  | written
  /-- A read has evicted a dirty unit and calls `write` for it: before and after
  `invalidate`. -/
  | flushing (unit : CacheUnit D)
  | flushed (unit : CacheUnit D)
  deriving Repr, DecidableEq

structure DedicatedCall (D : Type*) where
  access : Access D
  stage : Stage D
  deriving Repr, DecidableEq

structure DedicatedState (D : Type*) where
  device : Int → D
  cache : BlkCache D
  /-- The call each thread is in. -/
  calls : Nat → Option (DedicatedCall D)
  /-- The calls that have returned, in order, as the caller then has them. -/
  returned : List (Access D)
  evicted : List (CacheUnit D)

inductive DedicatedAction (D : Type*) where
  | call (t : Nat) (a : Access D)
  | go (t : Nat)
  deriving Repr, DecidableEq

namespace DedicatedState

variable {D : Type*}

def opened (capacity : Nat) (device : Int → D) : DedicatedState D :=
  ⟨device, .new capacity, fun _ => none, [], []⟩

def setCall (s : DedicatedState D) (t : Nat) (a : Access D) (stage : Stage D) : DedicatedState D :=
  { s with calls := Function.update s.calls t (some ⟨a, stage⟩) }

/-- The call of thread `t` returns. -/
def ret (s : DedicatedState D) (t : Nat) (a : Access D) : DedicatedState D :=
  { s with calls := Function.update s.calls t none, returned := s.returned ++ [a] }

/-- The end of a read that missed: the block goes into the cache. -/
def refill (s : DedicatedState D) (t : Nat) (a : Access D) : DedicatedState D :=
  let (cache, unit) := s.cache.write a.addr a.buffer false
  let s := { s with cache := cache, evicted := s.evicted ++ unit.toList }
  match unit with
  | some unit => if unit.dirty then s.setCall t a (.flushing unit) else s.ret t a
  | none => s.ret t a

/-- The next step of thread `t`. -/
def go (s : DedicatedState D) (t : Nat) (a : Access D) : Stage D → DedicatedState D
  | .called =>
      match a.type with
      | .readRequest =>
          match s.cache.read a.addr with
          | (cache, some data) => { s with cache := cache }.ret t { a with buffer := data }
          | (cache, none) => { s with cache := cache }.setCall t a .missed
      | .writeRequest => { s with cache := s.cache.invalidate a.addr }.setCall t a .invalidated
  | .missed => s.setCall t { a with buffer := s.device a.addr } .loaded
  | .loaded => s.refill t a
  | .invalidated =>
      { s with device := Function.update s.device a.addr a.buffer }.setCall t a .written
  | .written => s.ret t a
  | .flushing unit => { s with cache := s.cache.invalidate unit.id }.setCall t a (.flushed unit)
  | .flushed unit => { s with device := Function.update s.device unit.id unit.data }.ret t a

def step (s : DedicatedState D) : DedicatedAction D → Option (DedicatedState D)
  | .call t a =>
      match s.calls t with
      | none => some (s.setCall t a .called)
      | some _ => none
  | .go t => (s.calls t).map (fun c => s.go t c.access c.stage)

def run : DedicatedState D → List (DedicatedAction D) → Option (DedicatedState D)
  | s, [] => some s
  | s, a :: as => (s.step a).bind (fun s => run s as)

/-- In every state of the run, a call overlaps calls on its address only if both are
reads. -/
def Separate : DedicatedState D → List (DedicatedAction D) → Prop
  | _, [] => True
  | s, x :: as =>
      (∀ t a, x = .call t a → ∀ t' c, s.calls t' = some c → c.access.Apart a)
        ∧ ∀ s', s.step x = some s' → Separate s' as

/-! ## §2. The invariant. -/

/-- The data of the last completed write of an address. -/
def last (device₀ : Int → D) (s : DedicatedState D) : Int → D := lastWritten device₀ s.returned

/-- The stages that go with a read and with a write; nothing is ever flushed. -/
def StageOk : OpType → Stage D → Prop
  | .readRequest, stage => stage = .called ∨ stage = .missed ∨ stage = .loaded
  | .writeRequest, stage => stage = .called ∨ stage = .invalidated ∨ stage = .written

/-- A thread is writing the address. -/
def Writing (s : DedicatedState D) (a : Int) : Prop :=
  ∃ t c, s.calls t = some c ∧ c.access.addr = a ∧ (c.stage = .invalidated ∨ c.stage = .written)

structure Inv (device₀ : Int → D) (s : DedicatedState D) : Prop where
  clean : Clean s.cache (s.last device₀) s.Writing
  evicted : ∀ u ∈ s.evicted, u.dirty = false
  apart : ∀ t t' c c', t ≠ t' → s.calls t = some c → s.calls t' = some c' →
    c.access.Apart c'.access
  stage : ∀ t c, s.calls t = some c → StageOk c.access.type c.stage
  stored : ∀ a, (∀ t c, s.calls t = some c → c.stage = .written → c.access.addr ≠ a) →
    s.device a = s.last device₀ a
  written : ∀ t c, s.calls t = some c → c.stage = .written → s.device c.access.addr = c.access.buffer
  loaded : ∀ t c, s.calls t = some c → c.stage = .loaded →
    c.access.buffer = s.last device₀ c.access.addr
  reads : ReadsLast device₀ s.returned

variable {device₀ : Int → D} {s s' : DedicatedState D}

theorem inv_opened {capacity : Nat} (hcap : 1 ≤ capacity) (device₀ : Int → D) :
    (opened capacity device₀).Inv device₀ := by
  have hidle : ∀ t c, (opened capacity device₀).calls t ≠ some c := fun _ _ h => nomatch h
  refine ⟨clean_new hcap _ _, fun _ hu => absurd hu List.not_mem_nil, fun t _ c _ _ hc => absurd hc (hidle t c),
    fun t c hc => absurd hc (hidle t c), fun _ _ => rfl, fun t c hc => absurd hc (hidle t c),
    fun t c hc => absurd hc (hidle t c), ?_⟩
  intro pre r post heq
  simp [opened] at heq

/-- The calls of the other threads stay. -/
theorem calls_update {t t' : Nat} {x : Option (DedicatedCall D)} {c : DedicatedCall D}
    (h : Function.update s.calls t x t' = some c) :
    (t' = t ∧ x = some c) ∨ (t' ≠ t ∧ s.calls t' = some c) := by
  by_cases ht : t' = t
  · subst ht
    rw [Function.update_self] at h
    exact .inl ⟨rfl, h⟩
  · rw [Function.update_of_ne ht] at h
    exact .inr ⟨ht, h⟩

/-- A call that is apart from a write is not at its address. -/
theorem Inv.not_written (h : s.Inv device₀) {t : Nat} {c : DedicatedCall D} {a : Access D}
    (hc : s.calls t = some c) (hapart : c.access.Apart a)
    (hstage : c.stage = .invalidated ∨ c.stage = .written) : c.access.addr ≠ a.addr := by
  intro haddr
  have hok := h.stage t c hc
  rw [(hapart haddr).1] at hok
  rcases hok with hs | hs | hs <;> rw [hs] at hstage <;> rcases hstage with hw | hw <;> cases hw

/-- **A thread begins a call or goes on within it.**  It may have changed the cache and,
if it has written it, the block of its address. -/
theorem Inv.setCall (h : s.Inv device₀) {t : Nat} {a : Access D} {stage : Stage D}
    {cache : BlkCache D} {device : Int → D}
    (hnot : ∀ c, s.calls t = some c → c.stage ≠ .written)
    (hapart : ∀ t' c, t' ≠ t → s.calls t' = some c → c.access.Apart a)
    (hok : StageOk a.type stage)
    (hclean : Clean cache (s.last device₀)
      (fun x => (x = a.addr ∧ (stage = .invalidated ∨ stage = .written)) ∨ s.Writing x))
    (hdevice : ∀ x, (stage = .written → x ≠ a.addr) → device x = s.device x)
    (hwritten : stage = .written → device a.addr = a.buffer)
    (hloaded : stage = .loaded → a.buffer = s.last device₀ a.addr) :
    ({ s with cache := cache, device := device }.setCall t a stage).Inv device₀ := by
  refine ⟨hclean.mono (fun x u _ hbusy => ⟨rfl, ?_⟩), h.evicted, ?_, ?_, ?_, ?_, ?_, h.reads⟩
  · rintro ⟨t', c, hc, hx, hs⟩
    rcases calls_update hc with ⟨-, hnew⟩ | ⟨-, hold⟩
    · cases hnew
      exact hbusy (.inl ⟨hx.symm, hs⟩)
    · exact hbusy (.inr ⟨t', c, hold, hx, hs⟩)
  · intro t₁ t₂ c₁ c₂ hne h₁ h₂
    rcases calls_update h₁ with ⟨ht₁, hc₁⟩ | ⟨ht₁, hc₁⟩ <;>
      rcases calls_update h₂ with ⟨ht₂, hc₂⟩ | ⟨ht₂, hc₂⟩
    · exact absurd (ht₁.trans ht₂.symm) hne
    · cases hc₁
      exact (hapart _ _ ht₂ hc₂).symm
    · cases hc₂
      exact hapart _ _ ht₁ hc₁
    · exact h.apart _ _ _ _ hne hc₁ hc₂
  · intro t' c hc
    rcases calls_update hc with ⟨-, hnew⟩ | ⟨-, hold⟩
    · cases hnew
      exact hok
    · exact h.stage t' c hold
  · intro x hx
    have hself : stage = .written → x ≠ a.addr := fun hs =>
      (hx t ⟨a, stage⟩ (Function.update_self ..) hs).symm
    refine (hdevice x hself).trans (h.stored x (fun t' c hc hs => ?_))
    have hne : t' ≠ t := by
      rintro rfl
      exact hnot c hc hs
    exact hx t' c ((Function.update_of_ne hne _ _).trans hc) hs
  · intro t' c hc hs
    rcases calls_update hc with ⟨-, hnew⟩ | ⟨hne, hold⟩
    · cases hnew
      exact hwritten hs
    · refine (hdevice _ (fun _ => ?_)).trans (h.written t' c hold hs)
      exact h.not_written hold (hapart _ _ hne hold) (.inr hs)
  · intro t' c hc hs
    rcases calls_update hc with ⟨-, hnew⟩ | ⟨-, hold⟩
    · cases hnew
      exact hloaded hs
    · exact h.loaded t' c hold hs

/-- The calls of the other threads are apart from that of `t`. -/
theorem Inv.others (h : s.Inv device₀) {t : Nat} {a b : Access D} {stage : Stage D}
    (hc : s.calls t = some ⟨a, stage⟩) (htype : b.type = a.type) (haddr : b.addr = a.addr) :
    ∀ t' c, t' ≠ t → s.calls t' = some c → c.access.Apart b := by
  intro t' c hne hc' he
  have := h.apart t' t c ⟨a, stage⟩ hne hc' hc (he.trans haddr)
  exact ⟨this.1, htype.trans this.2⟩

/-- **A call returns**: a read has the data of the last completed write, a write becomes
the last one. -/
theorem Inv.ret (h : s.Inv device₀) {t : Nat} {a b : Access D} {stage : Stage D}
    (hc : s.calls t = some ⟨a, stage⟩) (htype : b.type = a.type) (haddr : b.addr = a.addr)
    (hread : a.type = .readRequest → b.buffer = s.last device₀ a.addr)
    (hwrite : a.type = .writeRequest → stage = .written ∧ b = a) {cache : BlkCache D}
    {evicted : List (CacheUnit D)} (hevicted : ∀ u ∈ evicted, u.dirty = false)
    (hclean : Clean cache (lastWritten (s.last device₀) [b])
      (fun x => ∃ t' c, t' ≠ t ∧ s.calls t' = some c ∧ c.access.addr = x
        ∧ (c.stage = .invalidated ∨ c.stage = .written))) :
    ({ s with cache := cache, evicted := evicted }.ret t b).Inv device₀ := by
  set s₁ := { s with cache := cache, evicted := evicted }.ret t b with hs₁
  have hlast : s₁.last device₀ = lastWritten (s.last device₀) [b] := lastWritten_append ..
  have hold : ∀ {t' c}, s₁.calls t' = some c → t' ≠ t ∧ s.calls t' = some c := by
    intro t' c hc'
    rcases calls_update hc' with ⟨-, hnew⟩ | ⟨hne, hc'⟩
    · cases hnew
    · exact ⟨hne, hc'⟩
  have hkept : ∀ x, (b.type = .writeRequest → x ≠ b.addr) → s₁.last device₀ x = s.last device₀ x := by
    intro x hx
    rw [hlast]
    exact lastWritten_other hx
  refine ⟨?_, hevicted, ?_, ?_, ?_, ?_, ?_, ?_⟩
  · rw [hlast]
    refine hclean.mono (fun x u _ hbusy => ⟨rfl, ?_⟩)
    rintro ⟨t', c, hc', hx, hs⟩
    obtain ⟨hne, hc'⟩ := hold hc'
    exact hbusy ⟨t', c, hne, hc', hx, hs⟩
  · intro t₁ t₂ c₁ c₂ hne h₁ h₂
    exact h.apart _ _ _ _ hne (hold h₁).2 (hold h₂).2
  · exact fun t' c hc' => h.stage t' c (hold hc').2
  · intro x hx
    show s.device x = _
    by_cases hw : b.type = .writeRequest ∧ x = b.addr
    · obtain ⟨hw, rfl⟩ := hw
      obtain ⟨hstage, rfl⟩ := hwrite (htype.symm.trans hw)
      have hself : lastWritten (s.last device₀) [b] b.addr = b.buffer :=
        lastWritten_self (by rw [hw]; nofun)
      rw [hlast, hself]
      exact h.written t _ hc hstage
    · rw [hkept x (fun ht he => hw ⟨ht, he⟩)]
      refine h.stored x (fun t' c hc' hs he => ?_)
      by_cases hne : t' = t
      · subst hne
        rw [hc] at hc'
        cases hc'
        have hok := h.stage _ _ hc
        rw [hs] at hok
        cases ht : a.type with
        | readRequest =>
            rw [ht] at hok
            rcases hok with hok | hok | hok <;> cases hok
        | writeRequest => exact hw ⟨htype.trans ht, he.symm.trans haddr.symm⟩
      · exact hx t' c ((Function.update_of_ne hne _ _).trans hc') hs he
  · exact fun t' c hc' => h.written t' c (hold hc').2
  · intro t' c hc' hs
    obtain ⟨hne, hc'⟩ := hold hc'
    rw [hkept _ (fun hw he => ?_)]
    · exact h.loaded t' c hc' hs
    · have := (h.others hc htype haddr t' c hne hc' he).2
      rw [hw] at this
      cases this
  · exact h.reads.concat (fun hr => by rw [haddr]; exact hread (htype.symm.trans hr))

variable {t : Nat} {a : Access D} {stage : Stage D}

theorem StageOk.read {type : OpType} (h : StageOk type stage)
    (hs : stage = .missed ∨ stage = .loaded) : type = .readRequest := by
  cases type with
  | readRequest => rfl
  | writeRequest =>
      rcases h with rfl | rfl | rfl <;> rcases hs with hs | hs <;> cases hs

theorem StageOk.write {type : OpType} (h : StageOk type stage)
    (hs : stage = .invalidated ∨ stage = .written) : type = .writeRequest := by
  cases type with
  | writeRequest => rfl
  | readRequest =>
      rcases h with rfl | rfl | rfl <;> rcases hs with hs | hs <;> cases hs

theorem own_stage (hc : s.calls t = some ⟨a, stage⟩) (hne : stage ≠ .written) :
    ∀ c, s.calls t = some c → c.stage ≠ .written := by
  intro c hc'
  rw [hc] at hc'
  cases hc'
  exact hne

/-- A thread that does not write adds nothing to what is written. -/
theorem clean_quiet {cache : BlkCache D} {last : Int → D} (h : Clean cache last s.Writing)
    (hquiet : ¬ (stage = .invalidated ∨ stage = .written)) :
    Clean cache last
      (fun x => (x = a.addr ∧ (stage = .invalidated ∨ stage = .written)) ∨ s.Writing x) := by
  refine h.mono (fun x u _ hbusy => ⟨rfl, ?_⟩)
  rintro (⟨-, hs⟩ | hw)
  · exact hquiet hs
  · exact hbusy hw

/-- A read leaves what was last written. -/
theorem lastWritten_read {last : Int → D} (hr : a.type = .readRequest) :
    lastWritten last [a] = last := by
  simp only [lastWritten, hr]

/-- What the other threads write is among what is written. -/
theorem others_writing {x : Int}
    (h : ∃ t' c, t' ≠ t ∧ s.calls t' = some c ∧ c.access.addr = x
      ∧ (c.stage = .invalidated ∨ c.stage = .written)) : s.Writing x := by
  obtain ⟨t', c, -, hc, hx, hs⟩ := h
  exact ⟨t', c, hc, hx, hs⟩

theorem Inv.go_read (h : s.Inv device₀) (hc : s.calls t = some ⟨a, .called⟩)
    (htype : a.type = .readRequest) : (s.go t a .called).Inv device₀ := by
  have hcache := h.clean.read a.addr
  simp only [DedicatedState.go, htype]
  split
  · next c data hread =>
      rw [hread] at hcache
      have hdata : data = s.last device₀ a.addr := h.clean.read_eq (by rw [hread])
      have hret : Inv device₀ ({ s with cache := c }.ret t ⟨.readRequest, a.addr, data⟩) := by
        refine h.ret (b := ⟨.readRequest, a.addr, data⟩) hc htype.symm rfl (fun _ => hdata)
          (by rw [htype]; nofun) h.evicted ?_
        rw [lastWritten_read rfl]
        exact hcache.mono (fun x u _ hbusy => ⟨rfl, fun hw => hbusy (others_writing hw)⟩)
      exact hret
  · next c hread =>
      rw [hread] at hcache
      exact h.setCall (own_stage hc nofun) (h.others hc rfl rfl) (htype ▸ .inr (.inl rfl))
        (clean_quiet hcache (by simp)) (fun _ _ => rfl) nofun nofun

theorem Inv.go_write (h : s.Inv device₀) (hc : s.calls t = some ⟨a, .called⟩)
    (htype : a.type = .writeRequest) : (s.go t a .called).Inv device₀ := by
  simp only [DedicatedState.go, htype]
  refine h.setCall (own_stage hc nofun) (h.others hc rfl rfl) (htype ▸ .inr (.inl rfl)) ?_
    (fun _ _ => rfl) nofun nofun
  refine h.clean.invalidate a.addr ?_
  rintro x (⟨rfl, -⟩ | hw)
  · exact .inl rfl
  · exact .inr hw

theorem Inv.go_missed (h : s.Inv device₀) (hc : s.calls t = some ⟨a, .missed⟩) :
    (s.go t a .missed).Inv device₀ := by
  have htype : a.type = .readRequest := (h.stage t _ hc).read (.inl rfl)
  have hapart := h.others hc rfl rfl
  refine h.setCall (own_stage hc nofun) hapart (htype ▸ .inr (.inr rfl))
    (clean_quiet h.clean (by simp)) (fun _ _ => rfl) nofun (fun _ => ?_)
  -- nobody writes the block
  refine h.stored a.addr (fun t' c hc' hs => ?_)
  by_cases hne : t' = t
  · subst hne
    exact absurd hs (own_stage hc nofun c hc')
  · exact h.not_written hc' (hapart t' c hne hc') (.inr hs)

theorem Inv.go_loaded (h : s.Inv device₀) (hc : s.calls t = some ⟨a, .loaded⟩) :
    (s.go t a .loaded).Inv device₀ := by
  have htype : a.type = .readRequest := (h.stage t _ hc).read (.inr rfl)
  have hbuffer : a.buffer = s.last device₀ a.addr := h.loaded t _ hc rfl
  have hidle : ¬ s.Writing a.addr := by
    rintro ⟨t', c, hc', hx, hs⟩
    by_cases hne : t' = t
    · subst hne
      rw [hc] at hc'
      cases hc'
      rcases hs with hs | hs <;> cases hs
    · exact h.not_written hc' (h.others hc rfl rfl t' c hne hc') hs hx
  obtain ⟨hcache, hevict⟩ := h.clean.refill hidle
  rw [← hbuffer] at hcache hevict
  have hret : Inv device₀ ({ s with
      cache := (s.cache.write a.addr a.buffer false).1
      evicted := s.evicted ++ (s.cache.write a.addr a.buffer false).2.toList }.ret t a) := by
    refine h.ret hc rfl rfl (fun _ => hbuffer) (by rw [htype]; nofun) ?_ ?_
    · intro u hu
      rcases List.mem_append.1 hu with hu | hu
      · exact h.evicted u hu
      · exact hevict u (Option.mem_toList.1 hu)
    · rw [lastWritten_read htype]
      exact hcache.mono (fun x u _ hbusy => ⟨rfl, fun hw => hbusy (others_writing hw)⟩)
  -- the unit that was evicted is not dirty, so the read returns
  show (s.refill t a).Inv device₀
  unfold refill
  match hw : s.cache.write a.addr a.buffer false with
  | (cache, none) =>
      rw [hw] at hret
      exact hret
  | (cache, some unit) =>
      have hclean : ¬ unit.dirty = true := by
        rw [hevict unit (by rw [hw])]
        exact Bool.false_ne_true
      rw [hw] at hret
      simp only [if_neg hclean]
      exact hret

theorem Inv.go_invalidated (h : s.Inv device₀) (hc : s.calls t = some ⟨a, .invalidated⟩) :
    (s.go t a .invalidated).Inv device₀ := by
  have htype : a.type = .writeRequest := (h.stage t _ hc).write (.inl rfl)
  refine h.setCall (own_stage hc nofun) (h.others hc rfl rfl) (htype ▸ .inr (.inr rfl)) ?_
    (fun x hx => Function.update_of_ne (hx rfl) _ _) (fun _ => Function.update_self ..) nofun
  refine h.clean.mono (fun x u _ hbusy => ⟨rfl, ?_⟩)
  rintro (⟨rfl, -⟩ | hw)
  · exact hbusy ⟨t, _, hc, rfl, .inl rfl⟩
  · exact hbusy hw

theorem Inv.go_written (h : s.Inv device₀) (hc : s.calls t = some ⟨a, .written⟩) :
    (s.go t a .written).Inv device₀ := by
  have htype : a.type = .writeRequest := (h.stage t _ hc).write (.inr rfl)
  refine h.ret hc rfl rfl (by rw [htype]; nofun) (fun _ => ⟨rfl, rfl⟩) h.evicted ?_
  refine h.clean.mono (fun x u _ hbusy => ⟨?_, fun hw => hbusy (others_writing hw)⟩)
  exact lastWritten_other (fun _ he => hbusy ⟨t, _, hc, he.symm, .inr rfl⟩)

theorem Inv.step (h : s.Inv device₀) {x : DedicatedAction D} (hs : s.step x = some s')
    (hsep : ∀ t a, x = .call t a → ∀ t' c, s.calls t' = some c → c.access.Apart a) :
    s'.Inv device₀ := by
  cases x with
  | call t a =>
      simp only [DedicatedState.step] at hs
      split at hs
      swap
      · cases hs
      rename_i hidle
      cases hs
      refine h.setCall (fun c hc => ?_) (fun t' c _ hc => hsep t a rfl t' c hc) ?_
        (clean_quiet h.clean (by simp)) (fun _ _ => rfl) nofun nofun
      · rw [hidle] at hc
        cases hc
      · cases a.type <;> exact .inl rfl
  | go t =>
      obtain ⟨⟨a, stage⟩, hc, rfl⟩ := Option.map_eq_some_iff.1 hs
      have hok := h.stage t _ hc
      cases stage with
      | called =>
          cases htype : a.type with
          | readRequest => exact h.go_read hc htype
          | writeRequest => exact h.go_write hc htype
      | missed => exact h.go_missed hc
      | loaded => exact h.go_loaded hc
      | invalidated => exact h.go_invalidated hc
      | written => exact h.go_written hc
      | flushing unit =>
          cases ht : a.type <;> simp only [ht] at hok <;> rcases hok with hs | hs | hs <;> cases hs
      | flushed unit =>
          cases ht : a.type <;> simp only [ht] at hok <;> rcases hok with hs | hs | hs <;> cases hs

/-- **The invariant after every run.** -/
theorem run_inv (as : List (DedicatedAction D)) : ∀ {s s' : DedicatedState D}, s.Inv device₀ →
    s.Separate as → s.run as = some s' → s'.Inv device₀ := by
  induction as with
  | nil =>
      intro s s' h _ hrun
      cases hrun
      exact h
  | cons a as ih =>
      intro s s' h hsep hrun
      obtain ⟨u, hu, hrun⟩ := Option.bind_eq_some_iff.1 hrun
      exact ih (h.step hu hsep.1) (hsep.2 u hu) hrun

/-! ## §3. Every call returns. -/

/-- The steps a thread has left in its call, at most. -/
def left : Stage D → Nat
  | .called => 5
  | .missed => 4
  | .loaded => 3
  | .flushing _ => 2
  | .flushed _ => 1
  | .invalidated => 2
  | .written => 1

/-- Thread `t` is out of its call, or has fewer than `n` steps left. -/
def Nearer (s : DedicatedState D) (t n : Nat) : Prop :=
  ∀ c, s.calls t = some c → left c.stage < n

theorem nearer_setCall {n : Nat} (h : left stage < n) : (s.setCall t a stage).Nearer t n := by
  intro c hc
  rcases calls_update hc with ⟨-, hnew⟩ | ⟨hne, -⟩
  · cases hnew
    exact h
  · exact absurd rfl hne

theorem nearer_ret {n : Nat} : (s.ret t a).Nearer t n := by
  intro c hc
  rcases calls_update hc with ⟨-, hnew⟩ | ⟨hne, -⟩
  · cases hnew
  · exact absurd rfl hne

/-- **A thread that is in a call can go on, and comes nearer to its end.** -/
theorem go_nearer (s : DedicatedState D) (t : Nat) (a : Access D) (stage : Stage D) :
    (s.go t a stage).Nearer t (left stage) := by
  cases stage with
  | called =>
      simp only [go]
      split
      · split
        · exact nearer_ret
        · exact nearer_setCall (by simp [left])
      · exact nearer_setCall (by simp [left])
  | missed => exact nearer_setCall (by simp [left])
  | loaded =>
      show (s.refill t a).Nearer t 3
      unfold refill
      split
      next cache unit _ =>
        split
        · split
          · exact nearer_setCall (by simp [left])
          · exact nearer_ret
        · exact nearer_ret
  | invalidated => exact nearer_setCall (by simp [left])
  | written => exact nearer_ret
  | flushing unit => exact nearer_setCall (by simp [left])
  | flushed unit => exact nearer_ret

end DedicatedState

/-! ## §4. Both accessors. -/

section Main

variable {D : Type*}

/-- What the accessor guarantees in a state: `returns` says that a thread in a call can
always go on and so comes to its end. -/
structure DedicatedState.Coherent (device : Int → D) (s : DedicatedState D) : Prop where
  reads : ReadsLast device s.returned
  evicted : ∀ u ∈ s.evicted, u.dirty = false
  returns : ∀ t c, s.calls t = some c →
    ∃ s', s.step (.go t) = some s' ∧ s'.Nearer t (DedicatedState.left c.stage)

theorem dedicated_coherent {capacity : Nat} (hcap : 1 ≤ capacity) (device : Int → D)
    (as : List (DedicatedAction D)) (s : DedicatedState D)
    (hsep : (DedicatedState.opened capacity device).Separate as)
    (hrun : (DedicatedState.opened capacity device).run as = some s) : s.Coherent device := by
  have h := DedicatedState.run_inv as (DedicatedState.inv_opened hcap device) hsep hrun
  refine ⟨h.reads, h.evicted, fun t c hc => ⟨_, ?_, DedicatedState.go_nearer s t c.access c.stage⟩⟩
  simp only [DedicatedState.step, hc, Option.map_some]

/-- **The write-through accessors are coherent** after every run in which requests of
one address overlap only if both are reads, whatever the capacity of the cache. -/
theorem writeThrough_coherent {capacity : Nat} (hcap : 1 ≤ capacity) (device : Int → D) :
    (∀ ioQueueLength as s, (SharedState.opened capacity ioQueueLength device).Separate as →
      (SharedState.opened capacity ioQueueLength device).run as = some s →
        s.Coherent device ioQueueLength)
    ∧ ∀ as s, (DedicatedState.opened capacity device).Separate as →
      (DedicatedState.opened capacity device).run as = some s → s.Coherent device :=
  ⟨fun ioQueueLength as s => shared_coherent hcap ioQueueLength device as s,
    fun as s => dedicated_coherent hcap device as s⟩

/-- A write and a read of one block, one after the other. -/
def writeRead : List (SharedAction Nat) :=
  [.enqueue ⟨.writeRequest, 5, 42⟩, .dequeue, .execute 0, .complete 0,
    .enqueue ⟨.readRequest, 5, 0⟩, .dequeue]

theorem writeRead_separate : (SharedState.opened 1 1 (fun _ => 0)).Separate writeRead := by
  refine ⟨fun r _ r' hr' => absurd hr' List.not_mem_nil, fun s₁ h₁ => ?_⟩
  cases h₁
  refine ⟨nofun, fun s₂ h₂ => ?_⟩
  cases h₂
  refine ⟨nofun, fun s₃ h₃ => ?_⟩
  cases h₃
  refine ⟨nofun, fun s₄ h₄ => ?_⟩
  cases h₄
  refine ⟨fun r _ r' hr' => absurd hr' List.not_mem_nil, fun s₅ h₅ => ?_⟩
  exact ⟨nofun, fun _ _ => trivial⟩

/-- The read finds what was written, in a cache of one unit. -/
theorem writeThrough_coherent_one :
    1 ≤ 1 ∧ ∃ s, (SharedState.opened 1 1 (fun _ => 0)).run writeRead = some s
      ∧ s.posted.map (fun r => r.buffer) = [42, 42] ∧ s.Coherent (fun _ => 0) 1 := by
  have hrun : ((SharedState.opened 1 1 (fun _ => 0)).run writeRead).map
      (fun s => s.posted.map (fun r => r.buffer)) = some [42, 42] := by decide
  obtain ⟨s, hs, hposted⟩ := Option.map_eq_some_iff.1 hrun
  exact ⟨Nat.le_refl 1, s, hs, hposted,
    (writeThrough_coherent (Nat.le_refl 1) (fun _ => 0)).1 1 writeRead s writeRead_separate hs⟩

end Main

end NvmTree.Blk
