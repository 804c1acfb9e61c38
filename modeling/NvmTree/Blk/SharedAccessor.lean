/-
  NvmTree.Blk.SharedAccessor — `nvme_blk_shared_working_thread_accessor`.

  Many threads enqueue requests and wait on a semaphore each; one working thread
  takes them from the queue, looks into the cache, submits commands to the device
  and runs their callbacks.  A write invalidates its unit when it is taken from the
  queue and puts it back when it completes; a read that misses puts its unit into
  the cache when it completes.  The device executes a command at some moment between
  submission and completion, in any order.

  `Clean` is what both write-through accessors keep of the cache: its units are not
  dirty, have the data of the last completed write, and none is there for an address
  that is being written.

  Main results:
    * `Clean.refill`       — putting a unit into the cache.
    * `SharedState.run_inv` — the invariant after every run.
    * `SharedState.work_step`, `SharedState.Inv.progress` — the working thread and the
      device run until all is posted.
    * `shared_coherent`    — the accessor after every run.
-/
import NvmTree.Blk.Lru
import Mathlib.Algebra.Ring.Nat

namespace NvmTree.Blk

/-! ## §1. A clean cache. -/

section Clean

variable {D : Type*}

structure Clean (c : BlkCache D) (last : Int → D) (busy : Int → Prop) : Prop where
  coherent : c.Coherent
  capacity : 1 ≤ c.capacity
  unit : ∀ a u, c.find a = some u → u.dirty = false ∧ u.data = last a ∧ ¬ busy a

theorem clean_new {capacity : Nat} (hcap : 1 ≤ capacity) (last : Int → D) (busy : Int → Prop) :
    Clean (BlkCache.new capacity) last busy :=
  ⟨BlkCache.coherent_new capacity, hcap, fun _ _ hu => nomatch hu⟩

variable {c : BlkCache D} {last last' : Int → D} {busy busy' : Int → Prop} {id : Int}

theorem Clean.mono (h : Clean c last busy)
    (hunit : ∀ a u, c.find a = some u → ¬ busy a → last' a = last a ∧ ¬ busy' a) :
    Clean c last' busy' := by
  refine ⟨h.coherent, h.capacity, fun a u hu => ?_⟩
  obtain ⟨hdirty, hdata, hbusy⟩ := h.unit a u hu
  obtain ⟨hlast, hbusy'⟩ := hunit a u hu hbusy
  exact ⟨hdirty, hdata.trans hlast.symm, hbusy'⟩

/-- **A hit returns the data last written.** -/
theorem Clean.read_eq (h : Clean c last busy) {d : D} (hd : (c.read id).2 = some d) :
    d = last id := by
  rw [BlkCache.read_snd h.coherent] at hd
  obtain ⟨u, hu, rfl⟩ := Option.map_eq_some_iff.1 hd
  exact (h.unit id u hu).2.1

theorem Clean.read (h : Clean c last busy) (id : Int) : Clean (c.read id).1 last busy := by
  refine ⟨h.coherent.read id, (BlkCache.read_capacity c id).symm ▸ h.capacity, fun a u hu => ?_⟩
  rw [BlkCache.find_read h.coherent] at hu
  exact h.unit a u hu

/-- After `invalidate` the address may be written. -/
theorem Clean.invalidate (h : Clean c last busy) (id : Int) (hbusy : ∀ a, busy' a → a = id ∨ busy a) :
    Clean (c.invalidate id) last busy' := by
  refine ⟨h.coherent.invalidate id, BlkCache.invalidate_capacity.symm ▸ h.capacity,
    fun a u hu => ?_⟩
  rw [h.coherent.find_invalidate] at hu
  split at hu
  · cases hu
  · rename_i hne
    obtain ⟨hdirty, hdata, hnot⟩ := h.unit a u hu
    exact ⟨hdirty, hdata, fun hb => (hbusy a hb).elim hne hnot⟩

/-- **What is known of an address is put into the cache**; what is evicted for it is
not dirty. -/
theorem Clean.refill (h : Clean c last busy) (hid : ¬ busy id) :
    Clean (c.write id (last id) false).1 last busy
      ∧ ∀ u, (c.write id (last id) false).2 = some u → u.dirty = false := by
  refine ⟨⟨h.coherent.write _ false h.capacity id, ?_, fun a u hu => ?_⟩, fun u hu => ?_⟩
  · rw [BlkCache.write_capacity]
    exact h.capacity
  · cases hf : c.find id with
    | some w =>
        rw [BlkCache.find_write_hit h.coherent _ false hf] at hu
        split at hu
        · rename_i heq
          cases hu
          subst heq
          exact ⟨(h.unit a w hf).1, rfl, hid⟩
        · exact h.unit a u hu
    | none =>
        rw [BlkCache.find_write_miss h.coherent _ false h.capacity hf] at hu
        split at hu
        · rename_i heq
          cases hu
          subst heq
          exact ⟨rfl, rfl, hid⟩
        · split at hu
          · cases hu
          · exact h.unit a u hu
  · obtain ⟨hfind, -, -⟩ := BlkCache.write_evicts h.coherent _ false h.capacity hu
    exact (h.unit u.id u hfind).1

end Clean

/-! ## §2. What was read and written. -/

inductive OpType where
  | readRequest
  | writeRequest
  deriving Repr, DecidableEq

/-- A read or write of one block: what is written, or what the caller's buffer holds
when the read returns. -/
structure Access (D : Type*) where
  type : OpType
  addr : Int
  buffer : D
  deriving Repr, DecidableEq

section Log

variable {D : Type*}

/-- The data of the last completed write of an address. -/
def lastWritten (device : Int → D) : List (Access D) → Int → D
  | [] => device
  | r :: log =>
      match r.type with
      | .readRequest => lastWritten device log
      | .writeRequest => lastWritten (Function.update device r.addr r.buffer) log

theorem lastWritten_append (device : Int → D) (log log' : List (Access D)) :
    lastWritten device (log ++ log') = lastWritten (lastWritten device log) log' := by
  induction log generalizing device with
  | nil => rfl
  | cons r log ih =>
      simp only [List.cons_append, lastWritten]
      split <;> exact ih _

/-- One more access, at its own address, … -/
theorem lastWritten_self {last : Int → D} {r : Access D}
    (hread : r.type = .readRequest → r.buffer = last r.addr) :
    lastWritten last [r] r.addr = r.buffer := by
  cases ht : r.type with
  | readRequest =>
      simp only [lastWritten, ht]
      exact (hread ht).symm
  | writeRequest =>
      simp only [lastWritten, ht]
      show Function.update last r.addr r.buffer r.addr = r.buffer
      exact Function.update_self ..

/-- … and at the addresses it does not write. -/
theorem lastWritten_other {last : Int → D} {r : Access D} {a : Int}
    (ha : r.type = .writeRequest → a ≠ r.addr) : lastWritten last [r] a = last a := by
  cases ht : r.type with
  | readRequest => simp only [lastWritten, ht]
  | writeRequest =>
      simp only [lastWritten, ht]
      exact Function.update_of_ne (ha ht) _ _

/-- Every read that returned has the data of the last write that completed before it. -/
def ReadsLast (device : Int → D) (log : List (Access D)) : Prop :=
  ∀ pre r post, log = pre ++ r :: post → r.type = .readRequest →
    r.buffer = lastWritten device pre r.addr

theorem ReadsLast.concat {device : Int → D} {log : List (Access D)} {r : Access D}
    (h : ReadsLast device log)
    (hr : r.type = .readRequest → r.buffer = lastWritten device log r.addr) :
    ReadsLast device (log ++ [r]) := by
  intro pre r' post heq htype
  rcases List.eq_nil_or_concat' post with rfl | ⟨post', x, rfl⟩
  · obtain ⟨rfl, hx⟩ := List.append_inj' heq rfl
    cases hx
    exact hr htype
  · rw [← List.cons_append, ← List.append_assoc] at heq
    obtain ⟨hlog, -⟩ := List.append_inj' heq rfl
    exact h pre r' post' hlog htype

/-- Accesses of one address overlap only if both are reads. -/
def Access.Apart (r r' : Access D) : Prop :=
  r.addr = r'.addr → r.type = .readRequest ∧ r'.type = .readRequest

theorem Access.Apart.symm {r r' : Access D} (h : r.Apart r') : r'.Apart r :=
  fun he => (h he.symm).symm

end Log

/-! ## §3. The code. -/

/-- `io_request`, with the number of its semaphore. -/
structure IoRequest (D : Type*) extends Access D where
  semaphore : Nat
  deriving Repr, DecidableEq

/-- A submitted command, and whether the device has executed it. -/
structure Command (D : Type*) where
  request : IoRequest D
  executed : Bool
  deriving Repr, DecidableEq

structure SharedState (D : Type*) where
  ioQueueLength : Nat
  device : Int → D
  cache : BlkCache D
  /-- `request_queue_`, the front first. -/
  requestQueue : List (IoRequest D)
  submitted : List (Command D)
  pendingRequests : Int
  /-- Semaphores created so far. -/
  semaphores : Nat
  /-- The requests whose semaphore was posted, in order, as the caller then has them. -/
  posted : List (IoRequest D)
  evicted : List (CacheUnit D)

namespace SharedState

variable {D : Type*}

/-- A new accessor over a device. -/
def opened (capacity ioQueueLength : Nat) (device : Int → D) : SharedState D :=
  ⟨ioQueueLength, device, .new capacity, [], [], 0, 0, [], []⟩

/-- `enqueue_io_request`, from `read` or `write`. -/
def enqueueIoRequest (s : SharedState D) (a : Access D) : SharedState D :=
  { s with
    requestQueue := s.requestQueue ++ [⟨a, s.semaphores⟩]
    semaphores := s.semaphores + 1 }

/-- The command is submitted to the queue pair. -/
def submit (s : SharedState D) (r : IoRequest D) : SharedState D :=
  { s with submitted := s.submitted ++ [⟨r, false⟩] }

/-- `pending_requests_.fetch_sub(1)` and `semaphore->post()`. -/
def post (s : SharedState D) (r : IoRequest D) : SharedState D :=
  { s with pendingRequests := s.pendingRequests - 1, posted := s.posted ++ [r] }

/-- One round of the inner loop of `working_thread`, for the request it has taken
from the queue. -/
def handle (s : SharedState D) (r : IoRequest D) : SharedState D :=
  match r.type with
  | .writeRequest => { s with cache := s.cache.invalidate r.addr }.submit r
  | .readRequest =>
      match s.cache.read r.addr with
      | (cache, some data) => { s with cache := cache }.post { r with buffer := data }
      | (cache, none) => { s with cache := cache }.submit r

def dequeue (s : SharedState D) : Option (SharedState D) :=
  match s.requestQueue with
  | [] => none
  | r :: queue =>
      if 0 < (s.ioQueueLength : Int) - s.pendingRequests then
        some ({ s with requestQueue := queue, pendingRequests := s.pendingRequests + 1 }.handle r)
      else none

/-- The device executes the `n`-th outstanding command. -/
def execute (s : SharedState D) (n : Nat) : Option (SharedState D) :=
  match s.submitted[n]? with
  | some ⟨r, false⟩ =>
      match r.type with
      | .readRequest =>
          some { s with submitted := s.submitted.set n ⟨{ r with buffer := s.device r.addr }, true⟩ }
      | .writeRequest =>
          some { s with
            device := Function.update s.device r.addr r.buffer
            submitted := s.submitted.set n ⟨r, true⟩ }
  | _ => none

/-- `callback_function`. -/
def callbackFunction (s : SharedState D) (r : IoRequest D) : SharedState D :=
  let (cache, unit) := s.cache.write r.addr r.buffer false
  { s with cache := cache, evicted := s.evicted ++ unit.toList }.post r

/-- The `n`-th outstanding command completes. -/
def complete (s : SharedState D) (n : Nat) : Option (SharedState D) :=
  match s.submitted[n]? with
  | some ⟨r, true⟩ => some ({ s with submitted := s.submitted.eraseIdx n }.callbackFunction r)
  | _ => none

end SharedState

inductive SharedAction (D : Type*) where
  | enqueue (a : Access D)
  | dequeue
  | execute (n : Nat)
  | complete (n : Nat)
  deriving Repr, DecidableEq

/-- The action is one of the working thread or of the device. -/
def SharedAction.IsWork {D : Type*} : SharedAction D → Prop
  | .enqueue _ => False
  | _ => True

namespace SharedState

variable {D : Type*}

def step (s : SharedState D) : SharedAction D → Option (SharedState D)
  | .enqueue a => some (s.enqueueIoRequest a)
  | .dequeue => s.dequeue
  | .execute n => s.execute n
  | .complete n => s.complete n

def run : SharedState D → List (SharedAction D) → Option (SharedState D)
  | s, [] => some s
  | s, a :: as => (s.step a).bind (fun s => run s as)

/-- The requests that were enqueued and not posted. -/
def inFlight (s : SharedState D) : List (IoRequest D) :=
  s.requestQueue ++ s.submitted.map Command.request

/-- In every state of the run, a request that is enqueued overlaps requests of its
address only if both are reads. -/
def Separate : SharedState D → List (SharedAction D) → Prop
  | _, [] => True
  | s, a :: as =>
      (∀ r, a = .enqueue r → ∀ r' ∈ s.inFlight, r'.Apart r)
        ∧ ∀ s', s.step a = some s' → Separate s' as

end SharedState

/-! ## §4. The invariant. -/

namespace SharedState

variable {D : Type*} {device₀ : Int → D} {s s' : SharedState D} {r : IoRequest D}

/-- The data of the last completed write of an address. -/
def last (device₀ : Int → D) (s : SharedState D) : Int → D :=
  lastWritten device₀ (s.posted.map IoRequest.toAccess)

/-- A write of the address is submitted. -/
def Writing (s : SharedState D) (a : Int) : Prop :=
  ∃ c ∈ s.submitted, c.request.type = .writeRequest ∧ c.request.addr = a

structure Inv (device₀ : Int → D) (s : SharedState D) : Prop where
  clean : Clean s.cache (s.last device₀) s.Writing
  evicted : ∀ u ∈ s.evicted, u.dirty = false
  apart : s.inFlight.Pairwise (fun r r' => r.Apart r'.toAccess)
  /-- The device has the last completed write, unless it has executed another one. -/
  stored : ∀ a, (∀ c ∈ s.submitted, c.executed = true → c.request.type = .writeRequest →
    c.request.addr ≠ a) → s.device a = s.last device₀ a
  write : ∀ c ∈ s.submitted, c.executed = true → c.request.type = .writeRequest →
    s.device c.request.addr = c.request.buffer
  read : ∀ c ∈ s.submitted, c.executed = true → c.request.type = .readRequest →
    c.request.buffer = s.last device₀ c.request.addr
  reads : ReadsLast device₀ (s.posted.map IoRequest.toAccess)
  pending : s.pendingRequests = s.submitted.length
  bound : s.submitted.length ≤ s.ioQueueLength
  /-- Each semaphore is that of one request, in flight or posted. -/
  once : (s.inFlight.map IoRequest.semaphore ++ s.posted.map IoRequest.semaphore).Perm
    (List.range s.semaphores)

theorem inv_opened {capacity : Nat} (hcap : 1 ≤ capacity) (ioQueueLength : Nat)
    (device₀ : Int → D) : (opened capacity ioQueueLength device₀).Inv device₀ := by
  refine ⟨clean_new hcap _ _, nofun, List.Pairwise.nil, fun _ _ => rfl, nofun, nofun, ?_, rfl,
    Nat.zero_le _, List.Perm.nil⟩
  intro pre r post heq
  simp [opened] at heq

/-- The order of the requests in flight does not matter. -/
theorem apart_perm {l l' : List (IoRequest D)} (hl : l'.Perm l)
    (h : l.Pairwise (fun r r' => r.Apart r'.toAccess)) :
    l'.Pairwise (fun r r' => r.Apart r'.toAccess) :=
  (hl.pairwise_iff (fun {_ _} h => Access.Apart.symm h)).2 h

theorem Inv.enqueue (h : s.Inv device₀) {a : Access D} (hapart : ∀ r ∈ s.inFlight, r.Apart a) :
    (s.enqueueIoRequest a).Inv device₀ := by
  have hperm : (s.enqueueIoRequest a).inFlight.Perm (s.inFlight ++ [⟨a, s.semaphores⟩]) := by
    show (s.requestQueue ++ [_] ++ s.submitted.map _).Perm (s.requestQueue ++ _ ++ [_])
    rw [List.append_assoc, List.append_assoc]
    exact List.perm_append_comm.append_left _
  refine ⟨h.clean, h.evicted, apart_perm hperm ?_, h.stored, h.write, h.read, h.reads, h.pending,
    h.bound, ?_⟩
  · rw [List.pairwise_append]
    refine ⟨h.apart, List.pairwise_singleton _ _, fun r hr r' hr' => ?_⟩
    cases List.mem_singleton.1 hr'
    exact hapart r hr
  · show (List.map _ (s.enqueueIoRequest a).inFlight ++ s.posted.map _).Perm
      (List.range (s.semaphores + 1))
    rw [List.range_succ]
    refine ((hperm.map _).append_right _).trans ?_
    rw [List.map_append, List.append_assoc]
    refine (List.perm_append_comm.append_left _).trans ?_
    rw [← List.append_assoc]
    exact h.once.append_right _

/-- The posted requests with one more. -/
theorem last_post (device₀ : Int → D) (s : SharedState D) (r : IoRequest D) :
    (s.post r).last device₀ = lastWritten (s.last device₀) [r.toAccess] := by
  unfold last post
  rw [List.map_append, lastWritten_append]
  rfl

variable {queue : List (IoRequest D)} {cache : BlkCache D}

/-- A request from the queue is submitted. -/
theorem Inv.submit (h : s.Inv device₀) (hq : s.requestQueue = r :: queue)
    (hroom : s.submitted.length < s.ioQueueLength)
    (hclean : Clean cache (s.last device₀)
      (fun a => (r.type = .writeRequest ∧ r.addr = a) ∨ s.Writing a)) :
    ({ s with
      requestQueue := queue
      pendingRequests := s.pendingRequests + 1
      cache := cache }.submit r).Inv device₀ := by
  have hperm : (queue ++ (s.submitted ++ [(⟨r, false⟩ : Command D)]).map Command.request).Perm
      s.inFlight := by
    rw [inFlight, hq, List.map_append, ← List.append_assoc]
    exact List.perm_append_singleton _ _
  -- a command that is executed was there before
  have hold : ∀ c ∈ s.submitted ++ [(⟨r, false⟩ : Command D)], c.executed = true → c ∈ s.submitted := by
    intro c hc hexec
    rcases List.mem_append.1 hc with hc | hc
    · exact hc
    · cases List.mem_singleton.1 hc
      cases hexec
  refine ⟨hclean.mono (fun a u _ hbusy => ⟨rfl, ?_⟩), h.evicted, apart_perm hperm h.apart,
    fun a ha => h.stored a (fun c hc => ha c (List.mem_append_left _ hc)),
    fun c hc hexec => h.write c (hold c hc hexec) hexec,
    fun c hc hexec => h.read c (hold c hc hexec) hexec, h.reads, ?_, ?_, ?_⟩
  · rintro ⟨c, hc, htype, haddr⟩
    rcases List.mem_append.1 hc with hc | hc
    · exact hbusy (.inr ⟨c, hc, htype, haddr⟩)
    · cases List.mem_singleton.1 hc
      exact hbusy (.inl ⟨htype, haddr⟩)
  · show s.pendingRequests + 1 = ((s.submitted ++ [_]).length : Int)
    rw [h.pending, List.length_append, List.length_singleton]
    rfl
  · show (s.submitted ++ [_]).length ≤ s.ioQueueLength
    rw [List.length_append, List.length_singleton]
    exact hroom
  · exact ((hperm.map _).append_right _).trans h.once

/-- A read from the queue is answered by the cache. -/
theorem Inv.hit (h : s.Inv device₀) (hq : s.requestQueue = r :: queue)
    (htype : r.type = .readRequest) (hclean : Clean cache (s.last device₀) s.Writing) :
    ({ s with
      requestQueue := queue
      pendingRequests := s.pendingRequests + 1
      cache := cache }.post { r with buffer := s.last device₀ r.addr }).Inv device₀ := by
  set t := { s with
    requestQueue := queue
    pendingRequests := s.pendingRequests + 1
    cache := cache } with ht
  have hlast : (t.post { r with buffer := s.last device₀ r.addr }).last device₀ = s.last device₀ := by
    rw [last_post]
    simp only [lastWritten, htype]
    rfl
  have hin : s.inFlight = r :: t.inFlight := by
    rw [inFlight, hq]
    rfl
  refine ⟨?_, h.evicted, ?_, ?_, h.write, ?_, ?_, ?_, h.bound, ?_⟩
  · rw [hlast]
    exact hclean
  · have := h.apart
    rw [hin] at this
    exact (List.pairwise_cons.1 this).2
  · rw [hlast]
    exact h.stored
  · rw [hlast]
    exact h.read
  · show ReadsLast device₀ ((s.posted ++ [_]).map _)
    rw [List.map_append]
    exact h.reads.concat (fun _ => rfl)
  · show s.pendingRequests + 1 - 1 = (s.submitted.length : Int)
    have := h.pending
    omega
  · show (t.inFlight.map _ ++ (s.posted ++ [_]).map IoRequest.semaphore).Perm _
    rw [List.map_append]
    refine List.Perm.trans ?_ h.once
    rw [hin, ← List.append_assoc]
    exact List.perm_append_singleton _ _

theorem Inv.dequeue (h : s.Inv device₀) (hs : s.dequeue = some s') : s'.Inv device₀ := by
  unfold SharedState.dequeue at hs
  split at hs
  · cases hs
  rename_i r queue hq
  split at hs
  swap
  · cases hs
  rename_i hroom
  have hroom : s.submitted.length < s.ioQueueLength := by
    have := h.pending
    omega
  cases hs
  unfold handle
  split
  · next htype =>
      refine h.submit hq hroom (h.clean.invalidate r.addr ?_)
      rintro a (⟨-, rfl⟩ | ha)
      · exact .inl rfl
      · exact .inr ha
  · next htype =>
      split
      · next c data hread =>
          have hdata : data = s.last device₀ r.addr := h.clean.read_eq (by rw [hread])
          have hc := h.clean.read r.addr
          rw [hread] at hc
          rw [hdata]
          exact h.hit hq htype hc
      · next c hread =>
          have hc := h.clean.read r.addr
          rw [hread] at hc
          refine h.submit hq hroom (hc.mono (fun a u _ hbusy => ⟨rfl, ?_⟩))
          rintro (⟨hwrite, -⟩ | hb)
          · rw [htype] at hwrite
            cases hwrite
          · exact hbusy hb

/-- The requests in flight, with an outstanding command in front. -/
theorem inFlight_perm {pre post : List (Command D)} {c : Command D}
    (hsub : s.submitted = pre ++ c :: post) :
    s.inFlight.Perm (c.request :: (s.requestQueue ++ (pre ++ post).map Command.request)) := by
  rw [inFlight, hsub, List.map_append, List.map_append, List.map_cons]
  exact (List.perm_middle.append_left _).trans List.perm_middle

/-- An outstanding command is apart from the other ones. -/
theorem Inv.others (h : s.Inv device₀) {pre post : List (Command D)} {c : Command D}
    (hsub : s.submitted = pre ++ c :: post) :
    (∀ c' ∈ pre ++ post, c.request.Apart c'.request.toAccess)
      ∧ (∀ r ∈ s.requestQueue, c.request.Apart r.toAccess)
      ∧ (s.requestQueue ++ (pre ++ post).map Command.request).Pairwise
        (fun r r' => r.Apart r'.toAccess) := by
  obtain ⟨hall, hrest⟩ := List.pairwise_cons.1 (apart_perm (inFlight_perm hsub).symm h.apart)
  exact ⟨fun c' hc' => hall _ (List.mem_append_right _ (List.mem_map_of_mem hc')),
    fun r hr => hall r (List.mem_append_left _ hr), hrest⟩

/-- **The device executes a command**: the other ones are on other addresses, or all
are reads. -/
theorem Inv.executed (h : s.Inv device₀) {pre post : List (Command D)} {r r' : IoRequest D}
    {device : Int → D} (hsub : s.submitted = pre ++ ⟨r, false⟩ :: post)
    (htype : r'.type = r.type) (haddr : r'.addr = r.addr) (hsem : r'.semaphore = r.semaphore)
    (hdevice : ∀ a, a ≠ r.addr → device a = s.device a)
    (hwrite : r.type = .writeRequest → device r.addr = r'.buffer)
    (hread : r.type = .readRequest → device = s.device ∧ r'.buffer = s.device r.addr) :
    Inv device₀ { s with device := device, submitted := pre ++ ⟨r', true⟩ :: post } := by
  obtain ⟨hothers, hqueue, hrest⟩ := h.others hsub
  have hcases : ∀ {c : Command D} {x : Command D}, c ∈ pre ++ x :: post ↔ c = x ∨ c ∈ pre ++ post := by
    intro c x
    rw [List.perm_middle.mem_iff, List.mem_cons]
  -- no other command writes the address
  have hother : ∀ c ∈ pre ++ post, c.request.type = .writeRequest → c.request.addr ≠ r.addr := by
    intro c hc hw he
    have := (hothers c hc he.symm).2
    rw [hw] at this
    cases this
  have hold : ∀ c ∈ s.submitted, c.executed = true → c ∈ pre ++ post := by
    intro c hc hexec
    rw [hsub] at hc
    refine (hcases.1 hc).resolve_left ?_
    rintro rfl
    cases hexec
  have hstored : (∀ c ∈ pre ++ post, c.executed = true → c.request.type = .writeRequest →
      c.request.addr ≠ r.addr) → s.device r.addr = s.last device₀ r.addr := fun hc =>
    h.stored r.addr (fun c hcs hexec => hc c (hold c hcs hexec) hexec)
  have hperm := inFlight_perm (s := { s with
    device := device, submitted := pre ++ ⟨r', true⟩ :: post }) rfl
  refine ⟨h.clean.mono (fun a u _ hbusy => ⟨rfl, ?_⟩), h.evicted, apart_perm hperm ?_, ?_, ?_, ?_,
    h.reads, ?_, ?_, ?_⟩
  · rintro ⟨c, hc, hw, ha⟩
    rcases hcases.1 hc with rfl | hc
    · exact hbusy ⟨⟨r, false⟩, by rw [hsub]; exact hcases.2 (.inl rfl), htype ▸ hw, haddr ▸ ha⟩
    · exact hbusy ⟨c, by rw [hsub]; exact hcases.2 (.inr hc), hw, ha⟩
  · refine List.pairwise_cons.2 ⟨fun r₁ hr₁ he => ?_, hrest⟩
    rw [htype]
    rcases List.mem_append.1 hr₁ with hr₁ | hr₁
    · exact hqueue r₁ hr₁ (haddr.symm.trans he)
    · obtain ⟨c, hc, rfl⟩ := List.mem_map.1 hr₁
      exact hothers c hc (haddr.symm.trans he)
  · intro a ha
    have hne : r.type = .writeRequest → a ≠ r.addr := fun hw =>
      haddr ▸ (ha ⟨r', true⟩ (hcases.2 (.inl rfl)) rfl (htype.trans hw)).symm
    have hsame : device a = s.device a := by
      cases ht : r.type with
      | readRequest => rw [(hread ht).1]
      | writeRequest => exact hdevice a (hne ht)
    exact hsame.trans (h.stored a (fun c hc hexec => ha c (hcases.2 (.inr (hold c hc hexec))) hexec))
  · intro c hc hexec hw
    rcases hcases.1 hc with rfl | hc
    · show device r'.addr = r'.buffer
      rw [haddr]
      exact hwrite (htype.symm.trans hw)
    · show device c.request.addr = c.request.buffer
      rw [hdevice _ (hother c hc hw)]
      exact h.write c (by rw [hsub]; exact hcases.2 (.inr hc)) hexec hw
  · intro c hc hexec hr
    rcases hcases.1 hc with rfl | hc
    · show r'.buffer = s.last device₀ r'.addr
      rw [haddr, (hread (htype.symm.trans hr)).2]
      exact hstored (fun c hc _ hw => hother c hc hw)
    · exact h.read c (by rw [hsub]; exact hcases.2 (.inr hc)) hexec hr
  · have := h.pending
    rw [hsub] at this
    simpa using this
  · have := h.bound
    rw [hsub] at this
    simpa using this
  · refine List.Perm.trans ?_ (((inFlight_perm hsub).symm.map _).append_right _ |>.trans h.once)
    refine (hperm.map _).append_right _ |>.trans ?_
    rw [List.map_cons, List.map_cons, hsem]

theorem Inv.execute (h : s.Inv device₀) {n : Nat} (hs : s.execute n = some s') :
    s'.Inv device₀ := by
  unfold SharedState.execute at hs
  split at hs
  swap
  · cases hs
  rename_i r hn
  obtain ⟨pre, post, hsub, -, hset⟩ := ListSplit.exists_split hn
  split at hs
  · next htype =>
      cases hs
      rw [hset]
      exact h.executed hsub rfl rfl rfl (fun _ _ => rfl) (by rw [htype]; nofun)
        (fun _ => ⟨rfl, rfl⟩)
  · next htype =>
      cases hs
      rw [hset]
      exact h.executed hsub rfl rfl rfl (fun a ha => Function.update_of_ne ha _ _)
        (fun _ => Function.update_self ..) (by rw [htype]; nofun)

/-- **The callback of a command**: a read has the data of the last completed write, a
write becomes the last one, and either goes into the cache. -/
theorem Inv.callback (h : s.Inv device₀) {pre post : List (Command D)} {r : IoRequest D}
    (hsub : s.submitted = pre ++ ⟨r, true⟩ :: post) :
    Inv device₀ ({ s with submitted := pre ++ post }.callbackFunction r) := by
  obtain ⟨hothers, -, hrest⟩ := h.others hsub
  have hself : ⟨r, true⟩ ∈ s.submitted := by simp [hsub]
  have hsubset : ∀ c ∈ pre ++ post, c ∈ s.submitted := by
    intro c hc
    rw [hsub, List.perm_middle.mem_iff]
    exact List.mem_cons_of_mem _ hc
  have hmem : ∀ c ∈ s.submitted, c = ⟨r, true⟩ ∨ c ∈ pre ++ post := by
    intro c hc
    rw [hsub, List.perm_middle.mem_iff] at hc
    exact List.mem_cons.1 hc
  have hother : ∀ c ∈ pre ++ post, c.request.type = .writeRequest → c.request.addr ≠ r.addr := by
    intro c hc hw he
    have := (hothers c hc he.symm).2
    rw [hw] at this
    cases this
  set t := { s with submitted := pre ++ post }.callbackFunction r with ht
  -- what completes is what is known of the address afterwards, and nothing else changes
  have hlast : t.last device₀ = lastWritten (s.last device₀) [r.toAccess] := last_post device₀ _ r
  have hbuffer : r.buffer = t.last device₀ r.addr := by
    rw [hlast]
    exact (lastWritten_self (fun hr => h.read _ hself rfl hr)).symm
  have hsame : ∀ a, (r.type = .writeRequest → a ≠ r.addr) → t.last device₀ a = s.last device₀ a := by
    intro a ha
    rw [hlast]
    exact lastWritten_other ha
  have hclean : Clean s.cache (t.last device₀) t.Writing := by
    refine h.clean.mono (fun a u _ hbusy => ⟨hsame a (fun hw he => ?_), ?_⟩)
    · exact hbusy ⟨_, hself, hw, he.symm⟩
    · rintro ⟨c, hc, hw, ha⟩
      exact hbusy ⟨c, hsubset c hc, hw, ha⟩
  have hidle : ¬ t.Writing r.addr := by
    rintro ⟨c, hc, hw, ha⟩
    exact hother c hc hw ha
  obtain ⟨hcache, hevict⟩ := hclean.refill hidle
  rw [← hbuffer] at hcache hevict
  refine ⟨hcache, ?_, hrest, ?_, ?_, ?_, ?_, ?_, ?_, ?_⟩
  · intro u hu
    rcases List.mem_append.1 hu with hu | hu
    · exact h.evicted u hu
    · exact hevict u (Option.mem_toList.1 hu)
  · intro a ha
    by_cases hw : r.type = .writeRequest ∧ a = r.addr
    · obtain ⟨hw, rfl⟩ := hw
      rw [← hbuffer]
      exact h.write _ hself rfl hw
    · rw [hsame a (fun ht he => hw ⟨ht, he⟩)]
      refine h.stored a (fun c hc hexec htype he => ?_)
      rcases hmem c hc with rfl | hc
      · exact hw ⟨htype, he.symm⟩
      · exact ha c hc hexec htype he
  · exact fun c hc => h.write c (hsubset c hc)
  · intro c hc hexec hr
    rw [hsame _ (fun ht he => ?_)]
    · exact h.read c (hsubset c hc) hexec hr
    · have := (hothers c hc he.symm).1
      rw [ht] at this
      cases this
  · show ReadsLast device₀ ((s.posted ++ [r]).map _)
    rw [List.map_append]
    exact h.reads.concat (fun hr => h.read _ hself rfl hr)
  · show s.pendingRequests - 1 = ((pre ++ post).length : Int)
    have := h.pending
    rw [hsub] at this
    simp only [List.length_append, List.length_cons] at this ⊢
    omega
  · show (pre ++ post).length ≤ s.ioQueueLength
    have := h.bound
    rw [hsub] at this
    simp only [List.length_append, List.length_cons] at this ⊢
    omega
  · show ((s.requestQueue ++ (pre ++ post).map Command.request).map IoRequest.semaphore
      ++ (s.posted ++ [r]).map _).Perm (List.range s.semaphores)
    have hsems : (s.posted ++ [r]).map IoRequest.semaphore
        = s.posted.map IoRequest.semaphore ++ [r.semaphore] := List.map_append
    refine List.Perm.trans ?_ (((inFlight_perm hsub).symm.map _).append_right _ |>.trans h.once)
    rw [hsems, ← List.append_assoc]
    exact List.perm_append_singleton _ _

theorem Inv.complete (h : s.Inv device₀) {n : Nat} (hs : s.complete n = some s') :
    s'.Inv device₀ := by
  unfold SharedState.complete at hs
  split at hs
  swap
  · cases hs
  rename_i r hn
  obtain ⟨pre, post, hsub, herase, -⟩ := ListSplit.exists_split hn
  cases hs
  rw [herase]
  exact h.callback hsub

/-- **The invariant after every run.** -/
theorem run_inv (as : List (SharedAction D)) : ∀ {s s' : SharedState D}, s.Inv device₀ →
    s.Separate as → s.run as = some s' → s'.Inv device₀ := by
  induction as with
  | nil =>
      intro s s' h _ hrun
      cases hrun
      exact h
  | cons a as ih =>
      intro s s' h hsep hrun
      obtain ⟨t, ht, hrun⟩ := Option.bind_eq_some_iff.1 hrun
      refine ih ?_ (hsep.2 t ht) hrun
      cases a with
      | enqueue a =>
          cases ht
          exact h.enqueue (hsep.1 a rfl)
      | dequeue => exact h.dequeue ht
      | execute n => exact h.execute ht
      | complete n => exact h.complete ht

/-! ## §5. All requests are posted. -/

/-- Steps that the working thread and the device still have to do, at most. -/
def work (s : SharedState D) : Nat :=
  3 * s.requestQueue.length + (s.submitted.map (fun c => if c.executed then 1 else 2)).sum

theorem work_handle (s : SharedState D) (r : IoRequest D) :
    (s.handle r).work ≤ s.work + 2
      ∧ (s.handle r).ioQueueLength = s.ioQueueLength ∧ (s.handle r).semaphores = s.semaphores := by
  have hsubmit : ∀ t : SharedState D, (t.submit r).work = t.work + 2 := by
    intro t
    simp only [work, submit, List.map_append, List.sum_append]
    rfl
  unfold handle
  split
  · exact ⟨Nat.le_of_eq (hsubmit _), rfl, rfl⟩
  · split
    · exact ⟨Nat.le_add_right _ _, rfl, rfl⟩
    · exact ⟨Nat.le_of_eq (hsubmit _), rfl, rfl⟩

/-- **Every step of the working thread or the device leaves less to do.** -/
theorem work_step {a : SharedAction D} (ha : a.IsWork) (hs : s.step a = some s') :
    s'.work < s.work ∧ s'.ioQueueLength = s.ioQueueLength ∧ s'.semaphores = s.semaphores := by
  cases a with
  | enqueue a => exact ha.elim
  | dequeue =>
      replace hs : s.dequeue = some s' := hs
      unfold SharedState.dequeue at hs
      split at hs
      · cases hs
      rename_i r queue hq
      split at hs
      swap
      · cases hs
      cases hs
      set t : SharedState D := { s with
        requestQueue := queue, pendingRequests := s.pendingRequests + 1 } with ht
      obtain ⟨hwork, hlen, hsem⟩ := work_handle t r
      refine ⟨Nat.lt_of_le_of_lt hwork ?_, hlen, hsem⟩
      have hs : s.work = t.work + 3 := by
        simp only [work, ht, hq, List.length_cons]
        omega
      omega
  | execute n =>
      replace hs : s.execute n = some s' := hs
      unfold SharedState.execute at hs
      split at hs
      swap
      · cases hs
      rename_i r hn
      obtain ⟨pre, post, hsub, -, hset⟩ := ListSplit.exists_split hn
      split at hs <;> cases hs
      all_goals
        refine ⟨?_, rfl, rfl⟩
        simp only [work, hset]
        simp [hsub]
  | complete n =>
      replace hs : s.complete n = some s' := hs
      unfold SharedState.complete at hs
      split at hs
      swap
      · cases hs
      rename_i r hn
      obtain ⟨pre, post, hsub, herase, -⟩ := ListSplit.exists_split hn
      cases hs
      refine ⟨?_, rfl, rfl⟩
      simp only [work, callbackFunction, SharedState.post, herase]
      simp [hsub]

/-- **While a request is in flight, there is something to do.** -/
theorem Inv.progress (h : s.Inv device₀) (hlen : 1 ≤ s.ioQueueLength) (hne : s.inFlight ≠ []) :
    ∃ a : SharedAction D, a.IsWork ∧ (s.step a).isSome = true := by
  cases hsub : s.submitted with
  | cons c rest =>
      have hget : s.submitted[0]? = some c := by rw [hsub]; rfl
      obtain ⟨r, executed⟩ := c
      cases executed with
      | true =>
          refine ⟨.complete 0, trivial, ?_⟩
          simp only [step, SharedState.complete, hget, Option.isSome_some]
      | false =>
          refine ⟨.execute 0, trivial, ?_⟩
          cases ht : r.type <;>
            simp only [step, SharedState.execute, hget, ht, Option.isSome_some]
  | nil =>
      -- nothing is outstanding, so the queue has a request and there is room
      have hpending := h.pending
      rw [hsub, List.length_nil] at hpending
      cases hq : s.requestQueue with
      | nil =>
          refine absurd ?_ hne
          rw [inFlight, hq, hsub]
          rfl
      | cons r queue =>
          have hroom : 0 < (s.ioQueueLength : Int) - s.pendingRequests := by omega
          refine ⟨.dequeue, trivial, ?_⟩
          simp only [step, SharedState.dequeue, hq, hroom, if_true, Option.isSome_some]

theorem work_run {as : List (SharedAction D)} : ∀ {s s' : SharedState D},
    (∀ a ∈ as, a.IsWork) → s.run as = some s' →
    as.length + s'.work ≤ s.work ∧ s'.ioQueueLength = s.ioQueueLength
      ∧ s'.semaphores = s.semaphores ∧ s.Separate as := by
  induction as with
  | nil =>
      intro s s' _ hrun
      cases hrun
      exact ⟨by simp, rfl, rfl, trivial⟩
  | cons a as ih =>
      intro s s' hall hrun
      obtain ⟨t, ht, hrun⟩ := Option.bind_eq_some_iff.1 hrun
      have ha := hall a List.mem_cons_self
      obtain ⟨hwork, hlen, hsem⟩ := work_step ha ht
      obtain ⟨hwork', hlen', hsem', hsep⟩ := ih (fun b hb => hall b (List.mem_cons_of_mem _ hb)) hrun
      refine ⟨?_, hlen'.trans hlen, hsem'.trans hsem, ?_, ?_⟩
      · rw [List.length_cons]
        omega
      · rintro r rfl
        exact ha.elim
      · intro t' ht'
        rw [ht] at ht'
        cases ht'
        exact hsep

/-- There is at most three times as much to do as there are requests. -/
theorem work_le (s : SharedState D) : s.work ≤ 3 * s.inFlight.length := by
  have hsum : ∀ l : List (Command D),
      (l.map (fun c => if c.executed then 1 else 2)).sum ≤ 3 * l.length := by
    intro l
    induction l with
    | nil => simp
    | cons c l ih =>
        simp only [List.map_cons, List.sum_cons, List.length_cons]
        split <;> omega
  have := hsum s.submitted
  simp only [work, inFlight, List.length_append, List.length_map]
  omega

end SharedState

/-! ## §6. The accessor. -/

section Main

variable {D : Type*}

theorem step_ioQueueLength {s s' : SharedState D} {a : SharedAction D} (hs : s.step a = some s') :
    s'.ioQueueLength = s.ioQueueLength := by
  cases a with
  | enqueue a =>
      cases hs
      rfl
  | dequeue => exact (SharedState.work_step (a := .dequeue) trivial hs).2.1
  | execute n => exact (SharedState.work_step (a := .execute n) trivial hs).2.1
  | complete n => exact (SharedState.work_step (a := .complete n) trivial hs).2.1

theorem run_ioQueueLength {as : List (SharedAction D)} : ∀ {s s' : SharedState D},
    s.run as = some s' → s'.ioQueueLength = s.ioQueueLength := by
  induction as with
  | nil =>
      intro s s' hrun
      cases hrun
      rfl
  | cons a as ih =>
      intro s s' hrun
      obtain ⟨t, ht, hrun⟩ := Option.bind_eq_some_iff.1 hrun
      exact (ih hrun).trans (step_ioQueueLength ht)

/-- What the accessor guarantees in a state: `ends` says that the working thread and
the device come to an end, and have then posted every semaphore. -/
structure SharedState.Coherent (device : Int → D) (ioQueueLength : Nat) (s : SharedState D) : Prop
    where
  reads : ReadsLast device (s.posted.map IoRequest.toAccess)
  evicted : ∀ u ∈ s.evicted, u.dirty = false
  outstanding : s.submitted.length ≤ ioQueueLength
  once : ∀ i, i < s.semaphores → (s.posted.map IoRequest.semaphore).count i
    + (s.inFlight.map IoRequest.semaphore).count i = 1
  ends : 1 ≤ ioQueueLength → ∀ as s', (∀ a ∈ as, a.IsWork) → s.run as = some s' →
    as.length ≤ 3 * s.inFlight.length
      ∧ ((∃ a : SharedAction D, a.IsWork ∧ (s'.step a).isSome = true)
        ∨ ∀ i, i < s.semaphores → (s'.posted.map IoRequest.semaphore).count i = 1)

theorem SharedState.Inv.count {device : Int → D} {s : SharedState D} (h : s.Inv device) {i : Nat}
    (hi : i < s.semaphores) : (s.posted.map IoRequest.semaphore).count i
      + (s.inFlight.map IoRequest.semaphore).count i = 1 := by
  have hcount := h.once.count_eq i
  rw [List.count_append, List.count_eq_one_of_mem List.nodup_range (List.mem_range.2 hi)] at hcount
  omega

/-- **The shared accessor after every run.** -/
theorem shared_coherent {capacity : Nat} (hcap : 1 ≤ capacity) (ioQueueLength : Nat)
    (device : Int → D) (as : List (SharedAction D)) (s : SharedState D)
    (hsep : (SharedState.opened capacity ioQueueLength device).Separate as)
    (hrun : (SharedState.opened capacity ioQueueLength device).run as = some s) :
    s.Coherent device ioQueueLength := by
  have h := SharedState.run_inv as (SharedState.inv_opened hcap ioQueueLength device) hsep hrun
  have hlen : s.ioQueueLength = ioQueueLength := run_ioQueueLength hrun
  refine ⟨h.reads, h.evicted, hlen ▸ h.bound, fun i hi => h.count hi, fun hpos bs s' hwork hbs => ?_⟩
  obtain ⟨hle, hlen', hsem, hsep'⟩ := SharedState.work_run hwork hbs
  have hmost := s.work_le
  have h' := SharedState.run_inv bs h hsep' hbs
  refine ⟨by omega, ?_⟩
  by_cases hnil : s'.inFlight = []
  · right
    intro i hi
    have hcount := h'.count (hsem.symm ▸ hi)
    rw [hnil] at hcount
    simpa using hcount
  · left
    exact h'.progress (by omega) hnil

end Main

end NvmTree.Blk
