/-
  NvmTree.Blk.NvmeAccessor — `nvme_blk_accessor`: calls, commands and callbacks.

  `asynch_read` and `asynch_write` answer from the cache when the block is in
  it, and otherwise register the I/O with the estimator and submit a command; the
  device executes a submitted command at some moment before its callback runs,
  and the callback puts the block into the cache.  Calls are numbered: the number
  stands for the context that is moved to `ready_contexts_` when the call completes.

  A submission can fail.  The call then only prints the error: the I/O stays
  registered, and no callback will make the context ready.  `Accounts` keeps such
  calls in a list of their own, next to the commands in flight and the contexts
  that are ready.

  Main results:
    * `run_accounts` — in every run, whatever the submissions return, the three
      lists account for every call and for every id in the estimator.
    * `run_submitted` — with no failed submission the third list is empty: ids,
      commands in flight and `pending_commands_` agree.
    * `failed_submission_leaks` — one failed submission of a read.
-/
import NvmTree.Blk.Cache
import NvmTree.Lib.ListSplit
import Mathlib.Algebra.Group.Int.Defs
import Mathlib.Algebra.Group.Nat.Defs
import Mathlib.Logic.Function.Basic

namespace NvmTree.Blk

/-! ## §1. The accessor and the device. -/

inductive IoType where
  | read | write
  deriving Repr, DecidableEq

/-- `ready_state_estimator`: when the commands in flight were submitted.  What it
estimates from that is not modelled. -/
structure ReadyStateEstimator where
  readTimeArray : List Nat
  writeTimeArray : List Nat
  idToTime : List (Nat × Nat)
  deriving Repr, DecidableEq

namespace ReadyStateEstimator

def timeArray (e : ReadyStateEstimator) : IoType → List Nat
  | .read => e.readTimeArray
  | .write => e.writeTimeArray

def setTimeArray (e : ReadyStateEstimator) (type : IoType) (times : List Nat) :
    ReadyStateEstimator :=
  match type with
  | .read => { e with readTimeArray := times }
  | .write => { e with writeTimeArray := times }

/-- `push_back` on the array of the type, and `id_to_time_[id] = current_timestamp`. -/
def registerIo (type : IoType) (e : ReadyStateEstimator) (id currentTimestamp : Nat) :
    ReadyStateEstimator :=
  let e := e.setTimeArray type (e.timeArray type ++ [currentTimestamp])
  { e with idToTime := (id, currentTimestamp) :: e.idToTime.filter (fun x => decide (x.1 ≠ id)) }

/-- `none`: the assertion fails, or the search for the time runs past the end of
the array. -/
def removeIo (type : IoType) (e : ReadyStateEstimator) (id : Nat) : Option ReadyStateEstimator :=
  match e.idToTime.lookup id with
  | none => none
  | some time =>
      if time ∈ e.timeArray type then
        let e := e.setTimeArray type ((e.timeArray type).erase time)
        some { e with idToTime := e.idToTime.filter (fun x => decide (x.1 ≠ id)) }
      else none

def registerReadIo := registerIo .read
def registerWriteIo := registerIo .write
def removeReadIo := removeIo .read
def removeWriteIo := removeIo .write

end ReadyStateEstimator

/-- `nvme_callback_para`, with the device's progress on the command. -/
structure NvmeCallbackPara (D : Type*) where
  context : Nat
  id : Int
  type : IoType
  buffer : D
  evicted : Bool
  executed : Bool
  ioId : Nat
  startTime : Nat
  deriving Repr, DecidableEq

structure NvmeBlkAccessor (D : Type*) where
  cache : BlkCache D
  readyContexts : List Nat
  /-- Commands submitted whose callback has not run. -/
  pending : List (NvmeCallbackPara D)
  device : Int → D
  freedBlkAddresses : List Int
  cursor : Nat
  ioIdGenerator : Nat
  estimator : ReadyStateEstimator
  pendingCommands : Int
  /-- Callbacks that the `process_completion` under way has run. -/
  processed : Nat
  /-- What `ticks()` returns. -/
  ticks : Nat
  /-- An assertion has failed, and the process with it. -/
  aborted : Bool

namespace NvmeBlkAccessor

variable {D : Type*}

/-- A freshly opened accessor; the content of the device is arbitrary. -/
def opened (capacity : Nat) (device : Int → D) : NvmeBlkAccessor D where
  cache := BlkCache.new capacity
  readyContexts := []
  pending := []
  device := device
  freedBlkAddresses := []
  cursor := 0
  ioIdGenerator := 0
  estimator := ⟨[], [], []⟩
  pendingCommands := 0
  processed := 0
  ticks := 0
  aborted := false

/-- `allocate` may return any freed address (`unordered_set::begin`): `pick`
says which. -/
def allocate (n : NvmeBlkAccessor D) (pick : Nat) : NvmeBlkAccessor D × Int :=
  if h : n.freedBlkAddresses = [] then
    ({ n with cursor := (n.cursor + 1) % 2 ^ 64 }, (n.cursor : Int))
  else
    let addr := n.freedBlkAddresses.get ⟨pick % n.freedBlkAddresses.length,
      Nat.mod_lt _ (List.length_pos_iff.2 h)⟩
    ({ n with freedBlkAddresses := n.freedBlkAddresses.filter (fun x => decide (x ≠ addr)) }, addr)

/-- Unlike in `file_blk_accessor`, `cursor_` has 64 bits and `address - 1` is
converted to unsigned. -/
def deallocate (n : NvmeBlkAccessor D) (address : Int) : NvmeBlkAccessor D :=
  if (n.cursor : Int) = (address - 1) % 2 ^ 64 then
    { n with cursor := (n.cursor + (2 ^ 64 - 1)) % 2 ^ 64 }
  else if address ∈ n.freedBlkAddresses then n
  else { n with freedBlkAddresses := address :: n.freedBlkAddresses }

/-- `transition_to_next_state` and `ready_contexts_.push_back`. -/
def ready (n : NvmeBlkAccessor D) (context : Nat) : NvmeBlkAccessor D :=
  { n with readyContexts := n.readyContexts ++ [context] }

/-- `io_id_generator_++`. -/
def nextIoId (n : NvmeBlkAccessor D) : NvmeBlkAccessor D :=
  { n with ioIdGenerator := n.ioIdGenerator + 1 }

/-- The queue pair takes a command; `pending_commands_` goes up with it. -/
def submit (n : NvmeBlkAccessor D) (para : NvmeCallbackPara D) : NvmeBlkAccessor D :=
  { n with pending := n.pending ++ [para], pendingCommands := n.pendingCommands + 1 }

/-- `asynch_read`: `some d` when the cache answers at once.  `buffer` is what
the caller's buffer holds before, `status` what the submission returns. -/
def asynchRead (n : NvmeBlkAccessor D) (context : Nat) (a : Int) (buffer : D) (status : Int) :
    NvmeBlkAccessor D × Option D :=
  let ioId := n.ioIdGenerator
  let n := n.nextIoId
  match n.cache.read a with
  | (cache, some d) => ({ n with cache := cache }.ready context, some d)
  | (cache, none) =>
      let n := { n with
        cache := cache
        estimator := n.estimator.registerReadIo ioId n.ticks }
      if status = 0 then
        (n.submit ⟨context, a, .read, buffer, false, false, ioId, n.ticks⟩, none)
      -- the error is printed: the I/O stays registered, and nothing will make
      -- the context ready
      else (n, none)

/-- `asynch_write` with `strong_consistent = false`: `true` when the cache
takes the data at once. -/
def asynchWrite (n : NvmeBlkAccessor D) (context : Nat) (a : Int) (buffer : D) (status : Int) :
    NvmeBlkAccessor D × Bool :=
  let ioId := n.ioIdGenerator
  let n := n.nextIoId
  if n.cache.isCached a then
    ({ n with cache := (n.cache.write a buffer true).1 }.ready context, true)
  else
    let n := { n with estimator := n.estimator.registerWriteIo ioId n.ticks }
    if status = 0 then
      (n.submit ⟨context, a, .write, buffer, false, false, ioId, n.ticks⟩, false)
    else (n, false)

def asynchWriteEvicted (n : NvmeBlkAccessor D) (a : Int) (buffer : D) (context : Nat)
    (status : Int) : NvmeBlkAccessor D :=
  let ioId := n.ioIdGenerator
  let n := { n.nextIoId with
    cache := n.cache.invalidate a
    estimator := n.estimator.registerWriteIo ioId n.ticks }
  if status = 0 then
    n.submit ⟨context, a, .write, buffer, true, false, ioId, n.ticks⟩
  else n

/-- `context_call_back_function`; `true` when the context was made ready. -/
def contextCallBackFunction (n : NvmeBlkAccessor D) (para : NvmeCallbackPara D) (status : Int) :
    NvmeBlkAccessor D × Bool :=
  let removed :=
    match para.type with
    | .read => n.estimator.removeReadIo para.ioId
    | .write => n.estimator.removeWriteIo para.ioId
  match removed with
  | none => ({ n with aborted := true }, false)
  | some estimator =>
      let n := { n with estimator := estimator }
      match n.cache.write para.id para.buffer false with
      | (cache, some unit) =>
          if unit.dirty then
            -- the context is passed on to the write of the evicted unit
            ({ n with cache := cache }.asynchWriteEvicted unit.id unit.data para.context status,
              false)
          else ({ n with cache := cache }.ready para.context, true)
      | (cache, none) => ({ n with cache := cache }.ready para.context, true)

/-- The end of `process_completion`: `pending_commands_ -= processed`. -/
def processCompletion (n : NvmeBlkAccessor D) : NvmeBlkAccessor D :=
  { n with pendingCommands := n.pendingCommands - n.processed, processed := 0 }

/-- The device executes a command. -/
def executeCommand (n : NvmeBlkAccessor D) (para : NvmeCallbackPara D) :
    (Int → D) × NvmeCallbackPara D :=
  match para.type with
  | .read => (n.device, { para with buffer := n.device para.id, executed := true })
  | .write => (Function.update n.device para.id para.buffer, { para with executed := true })

end NvmeBlkAccessor

/-! ## §2. Runs: calls, execution by the device, callbacks. -/

/-- A call in progress. -/
structure NvmeCall (D : Type*) where
  context : Nat
  type : IoType
  address : Int
  buffer : D
  deriving Repr, DecidableEq

/-- A completed read: the data it delivered, and the data of the last write
completed on its address. -/
structure ReadDone (D : Type*) where
  address : Int
  buffer : D
  last : D
  deriving Repr, DecidableEq

structure NvmeState (D : Type*) where
  acc : NvmeBlkAccessor D
  calls : List (NvmeCall D)
  last : Int → D
  reads : List (ReadDone D)

inductive NvmeOp (D : Type*) where
  | asynchRead (context : Nat) (a : Int) (buffer : D) (status : Int)
  | asynchWrite (context : Nat) (a : Int) (buffer : D) (status : Int)
  /-- The device executes the `i`-th pending command. -/
  | execute (i : Nat)
  /-- The callback of the `i`-th pending command runs. -/
  | callback (i : Nat) (status : Int)
  /-- `process_completion` returns. -/
  | processCompletion
  /-- Time passes. -/
  | tick (cycles : Nat)

namespace NvmeState

variable {D : Type*}

def opened (capacity : Nat) (device : Int → D) : NvmeState D :=
  ⟨NvmeBlkAccessor.opened capacity device, [], device, []⟩

/-- A call ends: a read is recorded, a write becomes the last one. -/
def complete (s : NvmeState D) (call : NvmeCall D) : NvmeState D :=
  let calls := s.calls.filter (fun c => decide (c.context ≠ call.context))
  match call.type with
  | .read => { s with calls, reads := ⟨call.address, call.buffer, s.last call.address⟩ :: s.reads }
  | .write => { s with calls, last := Function.update s.last call.address call.buffer }

/-- The call whose context is made ready, its buffer as the command left it. -/
def finish (s : NvmeState D) (para : NvmeCallbackPara D) : NvmeState D :=
  match s.calls.find? (fun c => decide (c.context = para.context)) with
  | some c => s.complete (if para.evicted then c else { c with buffer := para.buffer })
  | none => s

def step (s : NvmeState D) : NvmeOp D → NvmeState D
  | .asynchRead context a buffer status =>
      match s.acc.asynchRead context a buffer status with
      | (acc, some d) => { s with acc }.complete ⟨context, .read, a, d⟩
      | (acc, none) =>
          if status = 0 then { s with acc, calls := ⟨context, .read, a, buffer⟩ :: s.calls }
          else { s with acc }
  | .asynchWrite context a buffer status =>
      match s.acc.asynchWrite context a buffer status with
      | (acc, true) => { s with acc }.complete ⟨context, .write, a, buffer⟩
      | (acc, false) =>
          if status = 0 then { s with acc, calls := ⟨context, .write, a, buffer⟩ :: s.calls }
          else { s with acc }
  | .execute i =>
      match s.acc.pending[i]? with
      | some para =>
          { s with acc := { s.acc with
              device := (s.acc.executeCommand para).1
              pending := s.acc.pending.set i (s.acc.executeCommand para).2 } }
      | none => s
  | .callback i status =>
      match s.acc.pending[i]? with
      | some para =>
          let s := { s with acc := { s.acc with
            pending := s.acc.pending.eraseIdx i
            processed := s.acc.processed + 1 } }
          match s.acc.contextCallBackFunction para status with
          | (acc, true) => { s with acc }.finish para
          | (acc, false) =>
              -- the call goes on; its buffer stays as the command left it
              { s with
                acc
                calls := s.calls.map (fun c =>
                  if c.context = para.context ∧ para.evicted = false then
                    { c with buffer := para.buffer } else c) }
      | none => s
  | .processCompletion => { s with acc := s.acc.processCompletion }
  | .tick cycles => { s with acc := { s.acc with ticks := s.acc.ticks + cycles } }

/-- Two calls on one address never overlap; the device executes a command once,
before its callback. -/
def Allowed (s : NvmeState D) : NvmeOp D → Prop
  | .asynchRead context a _ _ | .asynchWrite context a _ _ =>
      ∀ c ∈ s.calls, c.context ≠ context ∧ c.address ≠ a
  | .execute i => ∃ para, s.acc.pending[i]? = some para ∧ para.executed = false
  | .callback i _ => ∃ para, s.acc.pending[i]? = some para ∧ para.executed = true
  | .processCompletion | .tick _ => True

/-- The condition on the state before a step: a unit that a callback evicts is
dirty, or equal to the device's block. -/
def Sound (s : NvmeState D) : NvmeOp D → Prop
  | .callback i _ => ∀ para, s.acc.pending[i]? = some para →
      ∀ u, (s.acc.cache.write para.id para.buffer false).2 = some u →
        u.dirty = false → s.acc.device u.id = u.data
  | _ => True

def run (s : NvmeState D) (ops : List (NvmeOp D)) : NvmeState D := ops.foldl step s

/-- `P` holds before every step of the run. -/
def Along (P : NvmeState D → NvmeOp D → Prop) : NvmeState D → List (NvmeOp D) → Prop
  | _, [] => True
  | s, op :: ops => P s op ∧ Along P (s.step op) ops

/-- Every completed read delivered the data of the last completed write. -/
def ReadsLast (s : NvmeState D) : Prop := ∀ r ∈ s.reads, r.buffer = r.last

end NvmeState


/-! ## §3. What the estimator knows. -/

/-- An I/O as it is registered. -/
structure RegisteredIo where
  type : IoType
  id : Nat
  time : Nat
  deriving Repr, DecidableEq

namespace ReadyStateEstimator

/-- The estimator holds the I/Os of `l` and no others; their ids are below `next`. -/
structure Tracks (e : ReadyStateEstimator) (l : List RegisteredIo) (next : Nat) : Prop where
  nodup : (l.map RegisteredIo.id).Nodup
  fresh : ∀ x ∈ l, x.id < next
  ids : e.idToTime.Perm (l.map (fun x => (x.id, x.time)))
  times : ∀ type, (e.timeArray type).Perm
    ((l.filter (fun x => decide (x.type = type))).map RegisteredIo.time)

@[simp] theorem timeArray_setTimeArray (e : ReadyStateEstimator) (type type' : IoType)
    (times : List Nat) :
    (e.setTimeArray type times).timeArray type'
      = if type' = type then times else e.timeArray type' := by
  cases type <;> cases type' <;> rfl

@[simp] theorem idToTime_setTimeArray (e : ReadyStateEstimator) (type : IoType)
    (times : List Nat) : (e.setTimeArray type times).idToTime = e.idToTime := by
  cases type <;> rfl

/-- `id_to_time_` does not matter for the arrays. -/
theorem timeArray_idToTime (e : ReadyStateEstimator) (m : List (Nat × Nat)) (type : IoType) :
    ({ e with idToTime := m } : ReadyStateEstimator).timeArray type = e.timeArray type := by
  cases type <;> rfl

variable {e : ReadyStateEstimator} {l l' : List RegisteredIo} {next : Nat} {x : RegisteredIo}

theorem Tracks.perm (h : e.Tracks l next) (hp : l.Perm l') : e.Tracks l' next where
  nodup := (hp.map _).nodup_iff.1 h.nodup
  fresh y hy := h.fresh y (hp.mem_iff.2 hy)
  ids := h.ids.trans (hp.map _)
  times type := (h.times type).trans ((hp.filter _).map _)

theorem Tracks.succ (h : e.Tracks l next) : e.Tracks l (next + 1) :=
  { h with fresh := fun y hy => Nat.lt_succ_of_lt (h.fresh y hy) }

/-- A list of pairs without the id of a list that does not have it is that list. -/
theorem filter_ids {id : Nat} (hid : id ∉ l.map RegisteredIo.id) :
    (l.map (fun y => (y.id, y.time))).filter (fun y => decide (y.1 ≠ id))
      = l.map (fun y => (y.id, y.time)) := by
  rw [List.filter_eq_self]
  intro y hy
  obtain ⟨z, hz, rfl⟩ := List.mem_map.1 hy
  have hne : z.id ≠ id := by
    rintro rfl
    exact hid (List.mem_map_of_mem hz)
  simpa using hne

/-- Registering under the next id. -/
theorem Tracks.registerIo (h : e.Tracks l next) (type : IoType) (time : Nat) :
    (e.registerIo type next time).Tracks (⟨type, next, time⟩ :: l) (next + 1) := by
  have hnew : next ∉ l.map RegisteredIo.id := by
    intro hm
    obtain ⟨y, hy, he⟩ := List.mem_map.1 hm
    exact absurd (h.fresh y hy) (he ▸ Nat.lt_irrefl _)
  refine ⟨List.nodup_cons.2 ⟨hnew, h.nodup⟩, ?_, ?_, ?_⟩
  · intro y hy
    rcases List.mem_cons.1 hy with rfl | hy
    · exact Nat.lt_succ_self _
    · exact Nat.lt_succ_of_lt (h.fresh y hy)
  · unfold ReadyStateEstimator.registerIo
    simp only [idToTime_setTimeArray, List.map_cons]
    refine List.Perm.cons _ ((h.ids.filter _).trans ?_)
    rw [filter_ids hnew]
  · intro type'
    unfold ReadyStateEstimator.registerIo
    simp only [timeArray_idToTime, timeArray_setTimeArray]
    by_cases ht : type' = type
    · subst ht
      rw [if_pos rfl, List.filter_cons_of_pos (by simp), List.map_cons]
      exact (List.perm_append_singleton _ _).trans ((h.times type').cons time)
    · rw [if_neg ht, List.filter_cons_of_neg (by simpa using Ne.symm ht)]
      exact h.times type'

/-- **A registered I/O can be removed**: the assertion holds, and the search for
its time stops inside the array. -/
theorem Tracks.removeIo (h : e.Tracks (x :: l) next) :
    ∃ e', e.removeIo x.type x.id = some e' ∧ e'.Tracks l next := by
  obtain ⟨hx, hnd⟩ := List.nodup_cons.1 h.nodup
  have hlookup : e.idToTime.lookup x.id = some x.time := by
    have hmem : (x.id, x.time) ∈ e.idToTime := h.ids.mem_iff.2 (by simp)
    have hkeys : (e.idToTime.map Prod.fst).Nodup := by
      rw [(h.ids.map Prod.fst).nodup_iff, List.map_map]
      exact h.nodup
    obtain ⟨l₁, l₂, heq⟩ := List.append_of_mem hmem
    rw [heq, List.map_append, List.map_cons] at hkeys
    rw [List.lookup_eq_some_iff]
    refine ⟨l₁, l₂, heq, fun p hp => ?_⟩
    have hne : x.id ≠ p.1 := by
      intro he
      have := (List.nodup_append.1 hkeys).2.2 p.1 (List.mem_map_of_mem hp) x.id (by simp)
      exact this he.symm
    simpa using hne
  have htimes := h.times x.type
  rw [List.filter_cons_of_pos (by simp), List.map_cons] at htimes
  have htime : x.time ∈ e.timeArray x.type := htimes.mem_iff.2 (by simp)
  have hremove : e.removeIo x.type x.id = some
      { e.setTimeArray x.type ((e.timeArray x.type).erase x.time) with
        idToTime := (e.setTimeArray x.type ((e.timeArray x.type).erase x.time)).idToTime.filter
          (fun y => decide (y.1 ≠ x.id)) } := by
    simp only [ReadyStateEstimator.removeIo, hlookup, if_pos htime]
  refine ⟨_, hremove, hnd, fun y hy => h.fresh y (List.mem_cons_of_mem _ hy), ?_, ?_⟩
  · simp only [idToTime_setTimeArray]
    refine (h.ids.filter _).trans ?_
    rw [List.map_cons, List.filter_cons_of_neg (by simp), filter_ids hx]
  · intro type
    simp only [timeArray_idToTime, timeArray_setTimeArray]
    by_cases ht : type = x.type
    · subst ht
      rw [if_pos rfl]
      have := htimes.erase x.time
      rwa [List.erase_cons_head] at this
    · rw [if_neg ht]
      have := h.times type
      rwa [List.filter_cons_of_neg (by simpa using Ne.symm ht)] at this

end ReadyStateEstimator

/-! ## §4. Every call is accounted for. -/

/-- The I/O of a command, as it was registered. -/
def NvmeCallbackPara.io {D : Type*} (p : NvmeCallbackPara D) : RegisteredIo :=
  ⟨p.type, p.ioId, p.startTime⟩

/-- A call that misses the cache takes an id and registers it. -/
def NvmeBlkAccessor.registered {D : Type*} (n : NvmeBlkAccessor D) (type : IoType) :
    NvmeBlkAccessor D :=
  { n.nextIoId with estimator := n.estimator.registerIo type n.ioIdGenerator n.ticks }

/-- `issued` are the contexts of the calls so far and `lost` those whose command
was not taken, each with the I/O that stays registered. -/
structure NvmeBlkAccessor.Accounts {D : Type*} (n : NvmeBlkAccessor D) (issued : List Nat)
    (lost : List (Nat × RegisteredIo)) : Prop where
  tracks : n.estimator.Tracks (n.pending.map NvmeCallbackPara.io ++ lost.map Prod.snd)
    n.ioIdGenerator
  contexts : ∀ c, issued.count c = n.readyContexts.count c
    + (n.pending.map NvmeCallbackPara.context).count c + (lost.map Prod.fst).count c
  commands : n.pendingCommands = n.pending.length + n.processed
  running : n.aborted = false

namespace NvmeState

variable {D : Type*}

/-- The context that a call is made for. -/
def issued : NvmeOp D → List Nat
  | .asynchRead context _ _ _ | .asynchWrite context _ _ _ => [context]
  | _ => []

/-- What a step loses because its submission fails. -/
def lost (s : NvmeState D) : NvmeOp D → List (Nat × RegisteredIo)
  | .asynchRead context a _ status =>
      if (s.acc.cache.read a).2.isNone ∧ status ≠ 0 then
        [(context, ⟨.read, s.acc.ioIdGenerator, s.acc.ticks⟩)] else []
  | .asynchWrite context a _ status =>
      if s.acc.cache.isCached a = false ∧ status ≠ 0 then
        [(context, ⟨.write, s.acc.ioIdGenerator, s.acc.ticks⟩)] else []
  | .callback i status =>
      match s.acc.pending[i]? with
      | some para =>
          match (s.acc.cache.write para.id para.buffer false).2 with
          | some unit =>
              if unit.dirty ∧ status ≠ 0 then
                [(para.context, ⟨.write, s.acc.ioIdGenerator, s.acc.ticks⟩)] else []
          | none => []
      | none => []
  | _ => []

/-- What a whole run loses. -/
def lostBy : NvmeState D → List (NvmeOp D) → List (Nat × RegisteredIo)
  | _, [] => []
  | s, op :: ops => s.lost op ++ lostBy (s.step op) ops

end NvmeState

section Accounts

variable {D : Type*} {n : NvmeBlkAccessor D} {issued : List Nat}
  {lost : List (Nat × RegisteredIo)}

open NvmeBlkAccessor

theorem accounts_opened (capacity : Nat) (device : Int → D) :
    (NvmeBlkAccessor.opened capacity device).Accounts [] [] := by
  refine ⟨⟨List.nodup_nil, ?_, List.Perm.refl _, ?_⟩, fun _ => rfl, rfl, rfl⟩
  · intro x hx
    cases hx
  · intro type
    cases type <;> exact List.Perm.refl _

/-- Only how often a context was issued matters. -/
theorem NvmeBlkAccessor.Accounts.congr (h : n.Accounts issued lost) {issued' : List Nat}
    (hc : ∀ c, issued'.count c = issued.count c) : n.Accounts issued' lost :=
  { h with contexts := fun c => (hc c).trans (h.contexts c) }

/-- A call ends with its context ready. -/
theorem NvmeBlkAccessor.Accounts.ready (h : n.Accounts issued lost) (context : Nat) :
    (n.ready context).Accounts (issued ++ [context]) lost := by
  refine ⟨h.tracks, fun c => ?_, h.commands, h.running⟩
  have := h.contexts c
  simp only [NvmeBlkAccessor.ready, List.count_append]
  omega

/-- The cache answers: the context is ready at once. -/
theorem NvmeBlkAccessor.Accounts.hit (h : n.Accounts issued lost) (context : Nat)
    (cache : BlkCache D) :
    ({ n.nextIoId with cache := cache }.ready context).Accounts (issued ++ [context]) lost :=
  have hnext : ({ n.nextIoId with cache := cache } : NvmeBlkAccessor D).Accounts issued lost :=
    ⟨h.tracks.succ, h.contexts, h.commands, h.running⟩
  hnext.ready context

/-- A command is submitted for the call, or the call is lost. -/
theorem NvmeBlkAccessor.Accounts.miss (h : n.Accounts issued lost) {p : NvmeCallbackPara D} {type : IoType}
    (hio : p.io = ⟨type, n.ioIdGenerator, n.ticks⟩) (cache : BlkCache D) :
    ({ n.registered type with cache := cache }.submit p).Accounts
        (issued ++ [p.context]) lost
      ∧ ({ n.registered type with cache := cache } : NvmeBlkAccessor D).Accounts
        (issued ++ [p.context]) (lost ++ [(p.context, p.io)]) := by
  have htracks := h.tracks.registerIo type n.ticks
  rw [← hio] at htracks
  constructor
  · refine ⟨htracks.perm ?_, fun c => ?_, ?_, h.running⟩
    · simp only [submit, registered, nextIoId, List.map_append, List.map_cons, List.map_nil,
        List.append_assoc, List.singleton_append]
      exact List.perm_middle.symm
    · have := h.contexts c
      simp only [submit, registered, nextIoId, List.map_append, List.map_cons, List.map_nil,
        List.count_append]
      omega
    · have := h.commands
      simp only [submit, registered, nextIoId, List.length_append, List.length_singleton]
      omega
  · refine ⟨htracks.perm ?_, fun c => ?_, h.commands, h.running⟩
    · simp only [registered, nextIoId, List.map_append, List.map_cons, List.map_nil]
      rw [← List.append_assoc]
      exact (List.perm_append_singleton _ _).symm
    · have := h.contexts c
      simp only [registered, nextIoId, List.map_append, List.map_cons, List.map_nil,
        List.count_append]
      omega

/-- The callback of a command finds its I/O registered, and takes it out: the
context is in nobody's hands then. -/
theorem NvmeBlkAccessor.Accounts.removeIo (h : n.Accounts issued lost) {i : Nat}
    {para : NvmeCallbackPara D} (hi : n.pending[i]? = some para) :
    ∃ e issued', n.estimator.removeIo para.type para.ioId = some e
      ∧ (∀ c, issued.count c = (issued' ++ [para.context]).count c)
      ∧ ∀ cache, ({ n with
          pending := n.pending.eraseIdx i
          processed := n.processed + 1
          estimator := e
          cache := cache } : NvmeBlkAccessor D).Accounts issued' lost := by
  obtain ⟨pre, post, hpend, herase, -⟩ := ListSplit.exists_split hi
  have htracks := h.tracks
  have hctx := h.contexts
  have hcmd := h.commands
  rw [hpend] at htracks hctx hcmd
  simp only [List.map_append, List.map_cons, List.count_append, List.count_cons] at hctx
  have hperm : (((pre ++ para :: post).map NvmeCallbackPara.io) ++ lost.map Prod.snd).Perm
      (para.io :: ((pre ++ post).map NvmeCallbackPara.io ++ lost.map Prod.snd)) := by
    rw [← List.cons_append]
    exact ((List.perm_middle).map NvmeCallbackPara.io).append_right _
  obtain ⟨e, he, hte⟩ := (htracks.perm hperm).removeIo
  have hmem : para.context ∈ issued := by
    have := hctx para.context
    rw [beq_self_eq_true, if_pos rfl] at this
    exact List.count_pos_iff.1 (by omega)
  have hcount : ∀ c, issued.count c = (issued.erase para.context ++ [para.context]).count c :=
    fun c => ((List.perm_cons_erase hmem).trans
      (List.perm_append_singleton _ _).symm).count_eq c
  refine ⟨e, issued.erase para.context, he, hcount, fun cache => ⟨?_, fun c => ?_, ?_, h.running⟩⟩
  · rw [← herase] at hte
    exact hte
  · have h1 := hctx c
    have h2 := hcount c
    simp only [herase, List.map_append, List.count_append, List.count_cons, List.count_nil] at h2 ⊢
    omega
  · simp only [herase, List.length_append, List.length_cons] at hcmd ⊢
    omega

@[simp] theorem complete_acc (s : NvmeState D) (call : NvmeCall D) :
    (s.complete call).acc = s.acc := by
  unfold NvmeState.complete
  cases call.type <;> rfl

@[simp] theorem finish_acc (s : NvmeState D) (para : NvmeCallbackPara D) :
    (s.finish para).acc = s.acc := by
  unfold NvmeState.finish
  split
  · exact complete_acc _ _
  · rfl

theorem removed_eq (e : ReadyStateEstimator) (type : IoType) (id : Nat) :
    (match type with
      | .read => e.removeReadIo id
      | .write => e.removeWriteIo id) = e.removeIo type id := by
  cases type <;> rfl

variable {s : NvmeState D}

theorem asynchRead_accounts (h : s.acc.Accounts issued lost) (context : Nat) (a : Int)
    (buffer : D) (status : Int) :
    (s.step (.asynchRead context a buffer status)).acc.Accounts (issued ++ [context])
      (lost ++ s.lost (.asynchRead context a buffer status)) := by
  unfold NvmeState.step NvmeState.lost NvmeBlkAccessor.asynchRead
  simp only [nextIoId]
  cases hr : s.acc.cache.read a with
  | mk cache o =>
  cases o with
  | some d =>
      simp only [Option.isNone_some, Bool.false_eq_true, false_and, if_false, List.append_nil,
        complete_acc]
      exact h.hit context cache
  | none =>
      obtain ⟨hsub, hlost⟩ := h.miss (p := ⟨context, a, .read, buffer, false, false,
        s.acc.ioIdGenerator, s.acc.ticks⟩) rfl cache
      by_cases hst : status = 0
      · simp only [hst, if_true, ne_eq, not_true_eq_false, and_false, if_false, List.append_nil]
        exact hsub
      · simp only [hst, if_false, Option.isNone_none, ne_eq, not_false_eq_true, and_self, if_true]
        exact hlost

theorem asynchWrite_accounts (h : s.acc.Accounts issued lost) (context : Nat) (a : Int)
    (buffer : D) (status : Int) :
    (s.step (.asynchWrite context a buffer status)).acc.Accounts (issued ++ [context])
      (lost ++ s.lost (.asynchWrite context a buffer status)) := by
  unfold NvmeState.step NvmeState.lost NvmeBlkAccessor.asynchWrite
  simp only [nextIoId]
  by_cases hc : s.acc.cache.isCached a = true
  · simp only [hc, if_true, Bool.true_eq_false, false_and, if_false, List.append_nil, complete_acc]
    exact h.hit context _
  · obtain ⟨hsub, hlost⟩ := h.miss (p := ⟨context, a, .write, buffer, false, false,
      s.acc.ioIdGenerator, s.acc.ticks⟩) rfl s.acc.cache
    by_cases hst : status = 0
    · simp only [hc, hst, if_true, ne_eq, not_true_eq_false, and_false, if_false, List.append_nil,
        Bool.false_eq_true]
      exact hsub
    · simp only [hc, hst, if_false, ne_eq, not_false_eq_true, and_self, if_true,
        Bool.false_eq_true]
      exact hlost

/-- The device's progress is not accounted. -/
theorem execute_accounts (h : s.acc.Accounts issued lost) (i : Nat) :
    (s.step (.execute i)).acc.Accounts issued lost := by
  simp only [NvmeState.step]
  cases hi : s.acc.pending[i]? with
  | none => exact h
  | some para =>
      obtain ⟨pre, post, hpend, -, hset⟩ := ListSplit.exists_split hi
      have hio : (s.acc.executeCommand para).2.io = para.io := by
        unfold executeCommand; split <;> rfl
      have hctx : (s.acc.executeCommand para).2.context = para.context := by
        unfold executeCommand; split <;> rfl
      have htracks := h.tracks
      have hcontexts := h.contexts
      have hcmd := h.commands
      rw [hpend] at htracks hcontexts hcmd
      refine ⟨?_, ?_, ?_, h.running⟩
      · simpa only [hset, List.map_append, List.map_cons, hio] using htracks
      · simpa only [hset, List.map_append, List.map_cons, hctx] using hcontexts
      · simpa only [hset, List.length_append, List.length_cons] using hcmd

theorem callback_accounts (h : s.acc.Accounts issued lost) (i : Nat) (status : Int) :
    (s.step (.callback i status)).acc.Accounts issued (lost ++ s.lost (.callback i status)) := by
  simp only [NvmeState.step, NvmeState.lost]
  cases hi : s.acc.pending[i]? with
  | none => simpa using h
  | some para =>
  obtain ⟨e, issued', he, hcount, hrest⟩ := h.removeIo hi
  simp only [NvmeBlkAccessor.contextCallBackFunction, removed_eq, he]
  cases hw : s.acc.cache.write para.id para.buffer false with
  | mk cache o =>
  cases o with
  | none =>
      simp only [List.append_nil, finish_acc]
      exact ((hrest cache).ready para.context).congr hcount
  | some unit =>
      cases hd : unit.dirty with
      | false =>
          simp only [hd, Bool.false_eq_true, if_false, false_and, List.append_nil, finish_acc]
          exact ((hrest cache).ready para.context).congr hcount
      | true =>
          -- the context goes on with the write of the evicted unit
          obtain ⟨hsub, hlost⟩ := (hrest cache).miss (p := ⟨para.context, unit.id, .write, unit.data,
            true, false, s.acc.ioIdGenerator, s.acc.ticks⟩) rfl (cache.invalidate unit.id)
          simp only [hd, if_true, true_and, asynchWriteEvicted]
          by_cases hst : status = 0
          · simp only [hst, if_true, ne_eq, not_true_eq_false, if_false, List.append_nil]
            exact hsub.congr hcount
          · simp only [hst, if_false, ne_eq, not_false_eq_true, if_true]
            exact hlost.congr hcount

/-- **One step keeps the accounts.** -/
theorem step_accounts (h : s.acc.Accounts issued lost) (op : NvmeOp D) :
    (s.step op).acc.Accounts (issued ++ NvmeState.issued op) (lost ++ s.lost op) := by
  cases op with
  | asynchRead context a buffer status => exact asynchRead_accounts h context a buffer status
  | asynchWrite context a buffer status => exact asynchWrite_accounts h context a buffer status
  | execute i =>
      simp only [NvmeState.issued, NvmeState.lost, List.append_nil]
      exact execute_accounts h i
  | callback i status =>
      simp only [NvmeState.issued, List.append_nil]
      exact callback_accounts h i status
  | processCompletion =>
      simp only [NvmeState.issued, NvmeState.lost, List.append_nil]
      refine ⟨h.tracks, h.contexts, ?_, h.running⟩
      have := h.commands
      simp only [NvmeState.step, NvmeBlkAccessor.processCompletion]
      omega
  | tick cycles =>
      simp only [NvmeState.issued, NvmeState.lost, List.append_nil]
      exact ⟨h.tracks, h.contexts, h.commands, h.running⟩

/-- **Every run keeps the accounts**, whatever its submissions return. -/
theorem run_accounts (ops : List (NvmeOp D)) :
    ∀ {s : NvmeState D} {issued lost}, s.acc.Accounts issued lost →
      (s.run ops).acc.Accounts (issued ++ ops.flatMap NvmeState.issued) (lost ++ s.lostBy ops) := by
  induction ops with
  | nil =>
      intro s issued lost h
      simpa [NvmeState.lostBy, NvmeState.run] using h
  | cons op ops ih =>
      intro s issued lost h
      have := ih (step_accounts h op)
      rw [List.append_assoc, List.append_assoc] at this
      exact this

end Accounts

/-! ## §5. Failed submissions. -/

section Submissions

variable {D : Type*}

/-- The submission that a step makes, if it makes one, returns zero. -/
def NvmeState.Submitted (s : NvmeState D) (op : NvmeOp D) : Prop := s.lost op = []

theorem lostBy_eq_nil {ops : List (NvmeOp D)} :
    ∀ {s : NvmeState D}, NvmeState.Along NvmeState.Submitted s ops → s.lostBy ops = [] := by
  induction ops with
  | nil => intro s _; rfl
  | cons op ops ih =>
      intro s h
      have hop : s.lost op = [] := h.1
      rw [NvmeState.lostBy, hop, ih h.2]
      rfl

/-- What the books of the accessor should say after calls for the contexts
`issued`: the estimator holds the ids of the commands in flight, each once;
`pending_commands_` counts those commands, with the ones that the
`process_completion` under way has completed and not yet subtracted; and each
call has its context ready, or its one command in flight. -/
structure NvmeBlkAccessor.Balanced (n : NvmeBlkAccessor D) (issued : List Nat) : Prop where
  ids : (n.estimator.idToTime.map Prod.fst).Perm (n.pending.map NvmeCallbackPara.ioId)
  nodup : (n.pending.map NvmeCallbackPara.ioId).Nodup
  commands : n.pendingCommands = n.pending.length + n.processed
  contexts : ∀ c, issued.count c
    = n.readyContexts.count c + (n.pending.map NvmeCallbackPara.context).count c
  running : n.aborted = false

/-- **Nothing is lost while the submissions succeed.** -/
theorem run_submitted (capacity : Nat) (device : Int → D) (ops : List (NvmeOp D))
    (hs : NvmeState.Along NvmeState.Submitted (NvmeState.opened capacity device) ops) :
    ((NvmeState.opened capacity device).run ops).acc.Balanced
      (ops.flatMap NvmeState.issued) := by
  have hopened : (NvmeState.opened capacity device).acc.Accounts [] [] :=
    accounts_opened capacity device
  have h := run_accounts ops hopened
  rw [lostBy_eq_nil hs, List.nil_append, List.append_nil] at h
  have htracks := h.tracks
  rw [List.map_nil, List.append_nil] at htracks
  have hids := htracks.ids.map Prod.fst
  have hnd := htracks.nodup
  rw [List.map_map, List.map_map] at hids
  rw [List.map_map] at hnd
  exact ⟨hids, hnd, h.commands, fun c => by simpa using h.contexts c, h.running⟩

/-- A read that misses and completes, one that hits (so that the status of its
submission does not matter), and a write in flight. -/
theorem run_submitted_three :
    ((NvmeState.opened 2 (fun _ => 0)).run
      [.asynchRead 0 5 7 0, .execute 0, .callback 0 0, .processCompletion, .asynchRead 1 5 7 1,
        .asynchWrite 2 6 9 0]).acc.Balanced [0, 1, 2] :=
  run_submitted 2 (fun _ => 0) _ ⟨rfl, rfl, rfl, rfl, rfl, rfl, trivial⟩

/-- **The condition is needed**: after a step whose submission failed, an id is
registered that belongs to no command in flight. -/
theorem id_leaks {s : NvmeState D} {issued : List Nat} {lost : List (Nat × RegisteredIo)}
    (h : s.acc.Accounts issued lost) {op : NvmeOp D} (hop : ¬ s.Submitted op) :
    ∃ id, id ∈ (s.step op).acc.estimator.idToTime.map Prod.fst
      ∧ id ∉ (s.step op).acc.pending.map NvmeCallbackPara.ioId := by
  have hstep := (step_accounts h op).tracks
  obtain ⟨x, hx⟩ := List.exists_mem_of_ne_nil _ hop
  have hids := hstep.ids.map Prod.fst
  have hnd := hstep.nodup
  rw [List.map_map] at hids
  rw [List.map_append, List.map_map] at hnd
  have hx' : x.2.id ∈ ((lost ++ s.lost op).map Prod.snd).map RegisteredIo.id :=
    List.mem_map_of_mem (List.mem_map_of_mem (List.mem_append_right _ hx))
  refine ⟨x.2.id, hids.mem_iff.2 ?_, fun hm => ?_⟩
  · rw [List.map_append]
    exact List.mem_append_right _ hx'
  · exact (List.nodup_append.1 hnd).2.2 _ hm _ hx' rfl

/-- **A failed submission**: the id of the read stays registered with no command in
flight, and its context is neither ready nor waiting for a command. -/
theorem failed_submission_leaks :
    ¬ ((NvmeState.opened 1 (fun _ => 0)).run [.asynchRead 3 5 7 (-12)]).acc.Balanced [3]
      ∧ ∃ n : NvmeBlkAccessor Nat,
        n = ((NvmeState.opened 1 (fun _ => 0)).run [.asynchRead 3 5 7 (-12)]).acc
        ∧ n.estimator.idToTime.map Prod.fst = [0] ∧ n.pending = [] ∧ n.readyContexts = [] := by
  refine ⟨fun h => ?_, _, rfl, rfl, rfl, rfl⟩
  have hids := h.ids
  exact absurd hids (by decide)

end Submissions

end NvmTree.Blk
