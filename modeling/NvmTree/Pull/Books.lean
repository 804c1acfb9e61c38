/-
  NvmTree.Pull.Books — where the contexts are, and what becomes of the requests.

  A context is free, new, in the queue of a barrier, granted one, or has I/O in
  flight (`Phase`).  `Lists` says that the lists of the worker hold each context as
  often as its phase says and no more: a context with two writes in flight is there
  twice, any other once.  `Requests` is the balance of the requests: each one is
  with its client, in the queue, in a context or finished, and a finished one had
  its callback and its semaphore once.  `Ctl` relates the phase of a context to the
  state it is in.

  `Books` joins these with the balance of the tokens.  It holds between the steps
  and inside `run`; the context that is running is then exempt from `Ctl`.
-/
import NvmTree.Pull.Tokens

namespace NvmTree

open RangeTree

namespace PullBasedBPlusTree

variable {K V : Type*}

/-! ## §1. Phases and lists. -/

inductive Phase where
  | free
  | new
  | queued (x : BlkAddress) (type : BarrierType)
  | granted
  /-- `n` reads or writes are in flight or have just completed. -/
  | io (n : Nat)
  deriving Repr, DecidableEq

def Phase.ios : Phase → Nat
  | .io n => n
  | _ => 0

structure Lists (q : Nat) (admission barrier blk io : List ContextId)
    (queues : BlkAddress → List (ContextId × BarrierType)) (freeSearch freeInsert : List Nat)
    (ph : ContextId → Phase) : Prop where
  admission : ∀ c, admission.count c = if ph c = .new then 1 else 0
  barrier : ∀ c, barrier.count c = if ph c = .granted then 1 else 0
  io : ∀ c, blk.count c + io.count c = (ph c).ios
  queue : ∀ x c type, (queues x).count (c, type) = if ph c = .queued x type then 1 else 0
  freeSearch : ∀ i, freeSearch.count i = if ph (.search i) = .free ∧ i < q then 1 else 0
  freeInsert : ∀ i, freeInsert.count i = if ph (.insert i) = .free ∧ i < q then 1 else 0
  bound : ∀ c, ph c ≠ .free → c.index < q

/-! ## §2. Requests. -/

def Request.cbF : Request K V → Bool
  | .search r => r.cbF
  | .insert r => r.cbF

def Request.semaphore : Request K V → Bool
  | .search r => r.semaphore
  | .insert r => r.semaphore

/-- The end of the request `id`. -/
def LogEvent.finishes (id : Nat) : LogEvent K V → Bool
  | .finishSearch i _ => i = id
  | .finishInsert i => i = id
  | _ => false

def LogEvent.isCallback (id : Nat) : LogEvent K V → Bool
  | .callback i => i = id
  | _ => false

def LogEvent.isRelease (id : Nat) : LogEvent K V → Bool
  | .release i => i = id
  | _ => false

def LogEvent.asSubmit : LogEvent K V → Option (Request K V)
  | .submit r => some r
  | _ => none

def LogEvent.asAdmission : LogEvent K V → Option (Request K V)
  | .admission r => some r
  | _ => none

/-- The requests submitted so far. -/
def submitted (log : List (LogEvent K V)) : List (Request K V) := log.filterMap LogEvent.asSubmit

/-- The requests admitted so far. -/
def admitted (log : List (LogEvent K V)) : List (Request K V) := log.filterMap LogEvent.asAdmission

/-- How often the request has finished. -/
def finishCount (log : List (LogEvent K V)) (r : Request K V) : Nat :=
  log.countP (LogEvent.finishes r.id)

/-- The requests submitted and not finished. -/
def unfinished (log : List (LogEvent K V)) : List (Request K V) :=
  (submitted log).filter (fun r => finishCount log r = 0)

/-- The requests admitted and not finished. -/
def inProgress (log : List (LogEvent K V)) : List (Request K V) :=
  (admitted log).filter (fun r => finishCount log r = 0)

/-- The contexts that serve a request. -/
def activeCount (q : Nat) (ph : ContextId → Phase) : Nat :=
  ∑ c ∈ allContexts q, if ph c = .free then 0 else 1

/-- The contexts that serve the request `id`. -/
def servingCount (q : Nat) (request : ContextId → Option (Request K V)) (ph : ContextId → Phase)
    (id : Nat) : Nat :=
  ∑ c ∈ allContexts q, if ph c ≠ .free ∧ (request c).map Request.id = some id then 1 else 0

structure Requests (q : Nat) (request : ContextId → Option (Request K V))
    (submitting queue : List (Request K V)) (pending slots : Int) (nextId : Nat)
    (log : List (LogEvent K V)) (ph : ContextId → Phase) : Prop where
  active : ∀ c, ph c ≠ .free → ∃ r, request c = some r ∧ r ∈ submitted log ∧ r ∈ admitted log
  waiting : ∀ r ∈ submitting ++ queue, r ∈ submitted log
  traced : ∀ r, r ∈ submitted log ↔ r ∈ submitting ++ queue ∨ r ∈ admitted log
  slots_eq : slots = q - activeCount q ph
  slots_nonneg : 0 ≤ slots
  pending_eq : pending = submitting.length + queue.length + activeCount q ph
  conserve : ∀ id, submitting.countP (fun r => r.id = id) + queue.countP (fun r => r.id = id)
    + servingCount q request ph id + log.countP (LogEvent.finishes id)
      = if id < nextId then 1 else 0
  fresh : ∀ r ∈ submitted log, r.id < nextId
  ids : ((submitted log).map Request.id).Nodup
  admittedIds : ((admitted log).map Request.id).Nodup
  served : ∀ r ∈ admitted log, 1 ≤ servingCount q request ph r.id + finishCount log r
  unfinished_eq : pending = (unfinished log).length
  inProgress_eq : slots = q - (inProgress log).length
  callback : ∀ r ∈ submitted log, log.countP (LogEvent.isCallback r.id)
    = if r.cbF then finishCount log r else 0
  semaphore : ∀ r ∈ submitted log, log.countP (LogEvent.isRelease r.id)
    = if r.semaphore then finishCount log r else 0
  known : ∀ id, nextId ≤ id → log.countP (LogEvent.isCallback id) = 0
    ∧ log.countP (LogEvent.isRelease id) = 0

/-! ## §3. Phase and state of a context. -/

namespace State

/-- The tokens in the hands of each context. -/
def held (s : State K V) (c : ContextId) : List BarrierToken := (s.contexts c).obtainedBarriers

def request (s : State K V) : ContextId → Option (Request K V)
  | .search i => (s.searches i).request.map .search
  | .insert i => (s.inserts i).request.map .insert

def queues (s : State K V) (x : BlkAddress) : List (ContextId × BarrierType) :=
  (s.barriers x).pendingBarrierRequests

def ioContexts (s : State K V) : List ContextId := s.pendingIo.map PendingIo.context

/-- The part of the state that belongs to context `c` is the same. -/
def SameAt (s s' : State K V) (c : ContextId) : Prop :=
  s'.contexts c = s.contexts c
    ∧ match c with
      | .search i => s'.searches i = s.searches i
      | .insert i => s'.inserts i = s.inserts i

end State

/-- The state of a waiting `search_context`. -/
def SearchCtl (b : CallBackContext) (c : SearchContext K V) : Phase → Prop
  | .free => b.obtainedBarriers = []
  | .new => b.currentState = .s0 ∧ b.obtainedBarriers = []
  | .queued x type => b.currentState = .s0 ∧ b.nextState = some .s1 ∧ c.nodeRef = x ∧ type = .read
  | .granted => b.currentState = .s1
  | .io n => b.nextState = some .s2 ∧ n = 1

/-- The state of a waiting `insert_context`. -/
def InsertCtl (b : CallBackContext) (c : InsertContext K V) : Phase → Prop
  | .free => b.obtainedBarriers = []
  | .new => b.currentState = .s0 ∧ b.obtainedBarriers = []
  | .queued x _ => b.currentState = .s0 ∧ b.nextState = some .s10001 ∧ c.nodeRef = some x
  | .granted => b.currentState = .s10001
  | .io n => (b.nextState = some .s2 ∧ n = 1)
      ∨ ((b.nextState = some .s10 ∨ b.nextState = some .s12) ∧ 0 < n
        ∧ c.writeBackCompletionCount + n = c.writeBackCompletionTarget)
      ∨ (b.nextState = some .s11 ∧ n = 1)

/-- A waiting context: its state, and that of the completions it has. -/
structure Ctl (s : State K V) (ph : ContextId → Phase) (c : ContextId) : Prop where
  state : match c with
    | .search i => SearchCtl (s.contexts c) (s.searches i) (ph c)
    | .insert i => InsertCtl (s.contexts c) (s.inserts i) (ph c)
  ready : c ∈ s.blkReadyContexts → (s.contexts c).nextState = some (s.contexts c).currentState
  read : ∀ i, c = .search i → ∀ t ∈ (s.contexts c).obtainedBarriers, t.type = .read

theorem Ctl.congr {s s' : State K V} {ph ph' : ContextId → Phase} {c : ContextId}
    (h : Ctl s ph c) (hs : s.SameAt s' c) (hph : ph' c = ph c)
    (hblk : c ∈ s'.blkReadyContexts → c ∈ s.blkReadyContexts) : Ctl s' ph' c := by
  obtain ⟨h1, h2⟩ := hs
  refine ⟨?_, fun hm => ?_, ?_⟩
  · cases c with
    | search i =>
        simp only at h2
        simp only [h1, h2, hph]
        exact h.state
    | insert i =>
        simp only at h2
        simp only [h1, h2, hph]
        exact h.state
  · rw [h1]
    exact h.ready (hblk hm)
  · rw [h1]
    exact h.read

/-- **Every context is in its place**; the context that runs, if any, is exempt
from `Ctl`. -/
structure Placed (q : Nat) (s : State K V) (ph : ContextId → Phase) (run : Option ContextId) :
    Prop where
  lists : Lists q s.admissionContexts s.barrierReadyContexts s.blkReadyContexts s.ioContexts
    s.queues s.freeSearchContexts s.freeInsertContexts ph
  tokens : Tokens q s.barriers s.held
  ctl : ∀ c, run ≠ some c → Ctl s ph c

/-- The requests of a state are in order. -/
def State.Requests (q : Nat) (s : State K V) (ph : ContextId → Phase) : Prop :=
  PullBasedBPlusTree.Requests q s.request s.submitting s.requestQueue s.pendingRequest
    s.freeContextSlots s.nextId s.log ph

variable {q : Nat} {s : State K V} {ph : ContextId → Phase} {run : Option ContextId}
  {c : ContextId} {x : BlkAddress} {type : BarrierType}

/-! ## §4. What a context does with its own data. -/

theorem Placed.park (h : Placed q s ph (some c)) (hctl : Ctl s ph c) : Placed q s ph none := by
  refine ⟨h.lists, h.tokens, fun d _ => ?_⟩
  by_cases hd : d = c
  · rw [hd]
    exact hctl
  · exact h.ctl d (fun hc => hd (Option.some.inj hc).symm)

theorem Placed.setInsert {i : Nat} (h : Placed q s ph (some (.insert i))) (x : InsertContext K V) :
    Placed q (s.setInsert i x) ph (some (.insert i)) := by
  refine ⟨h.lists, h.tokens, fun d hd => (h.ctl d hd).congr ⟨rfl, ?_⟩ rfl id⟩
  cases d with
  | search j => rfl
  | insert j => exact Function.update_of_ne (fun hj => hd (by rw [hj])) _ _

theorem Placed.setSearch {i : Nat} (h : Placed q s ph (some (.search i))) (x : SearchContext K V) :
    Placed q (s.setSearch i x) ph (some (.search i)) := by
  refine ⟨h.lists, h.tokens, fun d hd => (h.ctl d hd).congr ⟨rfl, ?_⟩ rfl id⟩
  cases d with
  | search j => exact Function.update_of_ne (fun hj => hd (by rw [hj])) _ _
  | insert j => rfl

theorem State.held_setContext (s : State K V) {b : CallBackContext}
    (hb : b.obtainedBarriers = s.held c) : (s.setContext c b).held = s.held := by
  funext d
  by_cases hd : d = c
  · subst hd
    simp [State.held, State.setContext] at hb ⊢
    exact hb
  · simp [State.held, State.setContext, hd]

@[simp] theorem State.held_enter (s : State K V) (c : ContextId) (st : CtxState) :
    (s.enter c st).held = s.held := s.held_setContext rfl

@[simp] theorem State.held_setNextState (s : State K V) (c : ContextId) (st : CtxState) :
    (s.setNextState c st).held = s.held := s.held_setContext rfl

@[simp] theorem State.held_transition (s : State K V) (c : ContextId) :
    (s.transition c).held = s.held := s.held_setContext rfl

theorem State.sameAt_setContext (s : State K V) {b : CallBackContext} {d : ContextId}
    (hd : d ≠ c) : s.SameAt (s.setContext c b) d := by
  refine ⟨Function.update_of_ne hd _ _, ?_⟩
  cases d <;> rfl

theorem Placed.setContext (h : Placed q s ph (some c)) {b : CallBackContext}
    (hb : b.obtainedBarriers = s.held c) : Placed q (s.setContext c b) ph (some c) := by
  refine ⟨h.lists, ?_, fun d hd => ?_⟩
  · rw [s.held_setContext hb]
    exact h.tokens
  · exact (h.ctl d hd).congr (s.sameAt_setContext (fun hc => hd (by rw [hc]))) rfl id

theorem Placed.enter (h : Placed q s ph (some c)) (st : CtxState) :
    Placed q (s.enter c st) ph (some c) := h.setContext rfl

theorem Placed.setNextState (h : Placed q s ph (some c)) (st : CtxState) :
    Placed q (s.setNextState c st) ph (some c) := h.setContext rfl

theorem Placed.transition (h : Placed q s ph (some c)) : Placed q (s.transition c) ph (some c) :=
  h.setContext rfl

/-! ## §5. Barriers: a token is taken, a request queued, a token given back. -/

/-- The lists do not depend on the counters of the barriers. -/
theorem State.queues_setBarrier (s : State K V) {b : ContextBarrier ContextId}
    (hb : b.pendingBarrierRequests = s.queues x) : (s.setBarrier x b).queues = s.queues := by
  funext y
  by_cases hy : y = x
  · subst hy
    simpa [State.queues, State.setBarrier] using hb
  · simp [State.queues, State.setBarrier, hy]

theorem ContextBarrier.pending_add {C : Type*} (b : ContextBarrier C) (type : BarrierType) :
    (b.add type).pendingBarrierRequests = b.pendingBarrierRequests := by
  cases type <;> rfl

theorem ContextBarrier.pending_sub {C : Type*} (b : ContextBarrier C) (type : BarrierType) :
    (b.sub type).pendingBarrierRequests = b.pendingBarrierRequests := by
  cases type <;> rfl

/-- **A barrier is granted at once.** -/
theorem Placed.grant (h : Placed q s ph (some c)) (hc : c.index < q)
    (hg : (s.barriers x).grants type = true) :
    Placed q ((s.setBarrier x ((s.barriers x).add type)).addToken c ⟨x, type⟩) ph (some c) := by
  refine ⟨?_, ?_, fun d hd => ?_⟩
  · have hq : ((s.setBarrier x ((s.barriers x).add type)).addToken c ⟨x, type⟩).queues = s.queues :=
      s.queues_setBarrier (ContextBarrier.pending_add _ _)
    rw [hq]
    exact h.lists
  · refine h.tokens.take ((s.barriers x).add type).pendingBarrierRequests hc hg ?_ ?_
    · simp [State.held, State.addToken, State.setContext, State.setBarrier]
    · intro d hd
      simp [State.held, State.addToken, State.setContext, State.setBarrier, hd]
  · exact (h.ctl d hd).congr (State.sameAt_setContext _ (fun hc => hd (by rw [hc]))) rfl id

/-- The phase of one context changes between phases in use. -/
theorem Lists.requeue {a b b' k io : List ContextId}
    {Q Q' : BlkAddress → List (ContextId × BarrierType)} {fs fi : List Nat}
    (h : Lists q a b k io Q fs fi ph) {p : Phase} (hold : ph c ≠ .free ∧ ph c ≠ .new)
    (hnew : p ≠ .free ∧ p ≠ .new) (hios : p.ios = (ph c).ios)
    (hb : ∀ d, b'.count d = if Function.update ph c p d = .granted then 1 else 0)
    (hQ : ∀ y d t, (Q' y).count (d, t) = if Function.update ph c p d = .queued y t then 1 else 0) :
    Lists q a b' k io Q' fs fi (Function.update ph c p) := by
  have hph : ∀ d (r : Phase), r = .free ∨ r = .new → (Function.update ph c p d = r ↔ ph d = r) := by
    intro d r hr
    by_cases hd : d = c
    · subst hd
      rw [Function.update_self]
      rcases hr with rfl | rfl
      · exact ⟨fun h => absurd h hnew.1, fun h => absurd h hold.1⟩
      · exact ⟨fun h => absurd h hnew.2, fun h => absurd h hold.2⟩
    · rw [Function.update_of_ne hd]
  refine ⟨fun d => ?_, hb, fun d => ?_, hQ, fun j => ?_, fun j => ?_, fun d hd => ?_⟩
  · rw [h.admission d]
    simp only [hph d .new (.inr rfl)]
  · rw [h.io d]
    by_cases hd : d = c
    · rw [hd, Function.update_self, hios]
    · rw [Function.update_of_ne hd]
  · rw [h.freeSearch j]
    simp only [hph _ .free (.inl rfl)]
  · rw [h.freeInsert j]
    simp only [hph _ .free (.inl rfl)]
  · exact h.bound d (fun hf => hd ((hph d .free (.inl rfl)).2 hf))

/-- **A request is queued**, and its context waits. -/
theorem Placed.enqueue (h : Placed q s ph (some c)) (hph : ph c = .io 0) :
    Placed q (s.setBarrier x ((s.barriers x).push c type))
      (Function.update ph c (.queued x type)) (some c) := by
  refine ⟨h.lists.requeue (by simp [hph]) (by simp) (by simp [hph, Phase.ios]) (fun d => ?_)
    (fun y d t => ?_), ?_, fun d hd => ?_⟩
  · refine (h.lists.barrier d).trans ?_
    by_cases hd : d = c
    · simp [hd, hph]
    · simp [hd]
  · have hQ := h.lists.queue y d t
    by_cases hy : y = x
    · subst hy
      have hpush : (s.setBarrier y ((s.barriers y).push c type)).queues y
          = s.queues y ++ [(c, type)] := by
        simp [State.queues, State.setBarrier, ContextBarrier.push]
      rw [hpush, List.count_append, hQ, List.count_singleton]
      by_cases hd : d = c
      · subst hd
        by_cases ht : t = type
        · simp [hph, ht]
        · simp [hph, Ne.symm ht]
      · have hne : ¬ ((c, type) == (d, t)) = true := by
          simp [Ne.symm hd]
        simp [hd, hne]
    · have hother : (s.setBarrier x ((s.barriers x).push c type)).queues y = s.queues y := by
        simp [State.queues, State.setBarrier, hy]
      rw [hother, hQ]
      by_cases hd : d = c
      · subst hd
        simp [hph, Ne.symm hy]
      · simp [hd]
  · exact h.tokens.setQueue rfl rfl
  · have hdc : d ≠ c := fun hc => hd (by rw [hc])
    exact (h.ctl d hd).congr ⟨rfl, by cases d <;> rfl⟩ (Function.update_of_ne hdc _ _) id

/-- What holds before `offer_barrier` and is kept by every `fire_context` holds
after it. -/
theorem State.offerBarrier_induct {P : State K V → Prop}
    (hfire : ∀ s d type rest, P s → (s.barriers x).pendingBarrierRequests = (d, type) :: rest →
      (s.barriers x).grants type = true → P (s.fireContext x d type rest))
    (fuel : Nat) (s : State K V) (h : P s) : P (State.offerBarrier x fuel s) := by
  induction fuel generalizing s with
  | zero => exact h
  | succ fuel ih =>
      rw [State.offerBarrier]
      split
      · exact h
      · next d type rest hQ =>
          split
          · next hg => exact ih _ (hfire s d type rest h hQ hg)
          · exact h

/-- A queued context after `fire_context`. -/
def CallBackContext.fired (b : CallBackContext) (token : BarrierToken) : CallBackContext :=
  { currentState := b.nextState.getD b.currentState
    nextState := b.nextState
    obtainedBarriers := token :: b.obtainedBarriers }

/-- The context is as before, or it was granted what it was queued for. -/
def MaybeFired (b b' : CallBackContext) (p p' : Phase) : Prop :=
  (p' = p ∧ b' = b) ∨ ∃ x t, p = .queued x t ∧ p' = .granted ∧ b' = b.fired ⟨x, t⟩

theorem MaybeFired.trans {b b' b'' : CallBackContext} {p p' p'' : Phase}
    (h : MaybeFired b b' p p') (h' : MaybeFired b' b'' p' p'') : MaybeFired b b'' p p'' := by
  rcases h with ⟨rfl, rfl⟩ | ⟨x, t, hp, rfl, hb⟩
  · exact h'
  · rcases h' with ⟨rfl, rfl⟩ | ⟨y, u, hq, _⟩
    · exact .inr ⟨x, t, hp, rfl, hb⟩
    · cases hq

theorem MaybeFired.free {b b' : CallBackContext} {p p' : Phase} (h : MaybeFired b b' p p') :
    p' = .free ↔ p = .free := by
  rcases h with ⟨rfl, _⟩ | ⟨x, t, rfl, rfl, _⟩
  · exact Iff.rfl
  · exact ⟨nofun, nofun⟩

/-- The context at the front of a queue is in the phase that says so. -/
theorem Lists.front {a b k io : List ContextId} {Q : BlkAddress → List (ContextId × BarrierType)}
    {fs fi : List Nat} {rest : List (ContextId × BarrierType)} (h : Lists q a b k io Q fs fi ph)
    (hQ : Q x = (c, type) :: rest) : ph c = .queued x type := by
  have hcount := h.queue x c type
  rw [hQ, List.count_cons_self] at hcount
  by_contra hne
  rw [if_neg hne] at hcount
  omega

theorem State.fireContext_self (s : State K V) (rest : List (ContextId × BarrierType)) :
    (s.fireContext x c type rest).contexts c = (s.contexts c).fired ⟨x, type⟩ := by
  simp [State.fireContext, State.addToken, State.transition, State.setContext, State.setBarrier,
    CallBackContext.fired]

theorem State.fireContext_other (s : State K V) (rest : List (ContextId × BarrierType))
    {d : ContextId} (hd : d ≠ c) : (s.fireContext x c type rest).contexts d = s.contexts d := by
  simp [State.fireContext, State.addToken, State.transition, State.setContext, State.setBarrier, hd]

/-- **A queued context is fired**: it has the token and becomes ready. -/
theorem Placed.fire (h : Placed q s ph run) {rest : List (ContextId × BarrierType)}
    (hrun : run ≠ some c) (hQ : s.queues x = (c, type) :: rest)
    (hg : (s.barriers x).grants type = true) :
    Placed q (s.fireContext x c type rest) (Function.update ph c .granted) run := by
  have hph := h.lists.front hQ
  have hc : c.index < q := h.lists.bound c (by rw [hph]; nofun)
  have hctl := h.ctl c hrun
  refine ⟨h.lists.requeue (by simp [hph]) (by simp) (by simp [hph, Phase.ios]) (fun d => ?_)
    (fun y d t => ?_), ?_, fun d hd => ?_⟩
  · have hb := h.lists.barrier d
    have hl : (s.fireContext x c type rest).barrierReadyContexts = s.barrierReadyContexts ++ [c] :=
      rfl
    rw [hl, List.count_append, hb, List.count_singleton]
    by_cases hd : d = c
    · subst hd
      simp [hph]
    · simp [hd, Ne.symm hd]
  · have hq := h.lists.queue y d t
    have hfire : (s.fireContext x c type rest).queues = Function.update s.queues x rest := by
      funext z
      by_cases hz : z = x
      · subst hz
        simp [State.queues, State.fireContext, State.setBarrier, State.addToken, State.transition,
          State.setContext]
      · simp [State.queues, State.fireContext, State.setBarrier, State.addToken, State.transition,
          State.setContext, hz]
    rw [hfire]
    by_cases hy : y = x
    · subst hy
      rw [hQ, List.count_cons] at hq
      rw [Function.update_self]
      by_cases hd : d = c
      · subst hd
        by_cases ht : t = type
        · subst ht
          simp [hph] at hq ⊢
          exact hq
        · simp [hph, Ne.symm ht] at hq ⊢
          exact hq
      · have hne : ¬ ((c, type) == (d, t)) = true := by simp [Ne.symm hd]
        simp [hne] at hq
        simp [hd, hq]
    · rw [Function.update_of_ne hy, hq]
      by_cases hd : d = c
      · subst hd
        simp [hph, Ne.symm hy]
      · simp [hd]
  · refine h.tokens.take rest hc hg ?_ (fun d hd => ?_)
    · rw [State.held, State.fireContext_self]
      exact List.Perm.refl _
    · rw [State.held, State.fireContext_other _ _ hd]
      rfl
  · by_cases hdc : d = c
    · subst hdc
      -- it was in state 0 and goes to the state it had set as the next
      have hself : (s.fireContext x d type rest).contexts d = (s.contexts d).fired ⟨x, type⟩ :=
        s.fireContext_self rest
      refine ⟨?_, fun hm => ?_, fun i hi t ht => ?_⟩
      · have hst := hctl.state
        rw [hph] at hst
        rw [Function.update_self, hself]
        cases d with
        | search i => simp [SearchCtl, CallBackContext.fired] at hst ⊢; simp [hst]
        | insert i => simp [InsertCtl, CallBackContext.fired] at hst ⊢; simp [hst]
      · have hio := h.lists.io d
        rw [hph] at hio
        have hpos := List.count_pos_iff.2 hm
        change 0 < s.blkReadyContexts.count d at hpos
        simp only [Phase.ios] at hio
        omega
      · rw [hself] at ht
        rcases List.mem_cons.1 ht with rfl | ht
        · have hst := hctl.state
          rw [hph] at hst
          subst hi
          exact hst.2.2.2
        · exact hctl.read i hi t ht
    · exact (h.ctl d hd).congr ⟨State.fireContext_other _ _ hdc, by cases d <;> rfl⟩
        (Function.update_of_ne hdc _ _) id

/-- Nothing but the barriers, the tokens and the ready list of the barriers. -/
def State.BarriersOnly (s s' : State K V) : Prop :=
  ∃ b C l, s' = { s with barriers := b, contexts := C, barrierReadyContexts := l }

/-- After releases of the context `c`: it has the tokens `kept`, and other contexts
may have been fired. -/
structure Released (q : Nat) (s s' : State K V) (ph : ContextId → Phase) (c : ContextId)
    (kept : List BarrierToken) (ph' : ContextId → Phase) : Prop where
  placed : Placed q s' ph' (some c)
  self : s'.contexts c = { s.contexts c with obtainedBarriers := kept }
  phase : ph' c = ph c
  others : ∀ d, d ≠ c → MaybeFired (s.contexts d) (s'.contexts d) (ph d) (ph' d)
  frame : s.BarriersOnly s'

theorem Released.refl (h : Placed q s ph (some c)) : Released q s s ph c (s.held c) ph :=
  ⟨h, rfl, rfl, fun _ _ => .inl ⟨rfl, rfl⟩, s.barriers, s.contexts, s.barrierReadyContexts, rfl⟩

theorem Released.trans {s' s'' : State K V} {ph' ph'' : ContextId → Phase}
    {kept kept' : List BarrierToken} (h : Released q s s' ph c kept ph')
    (h' : Released q s' s'' ph' c kept' ph'') : Released q s s'' ph c kept' ph'' := by
  refine ⟨h'.placed, by rw [h'.self, h.self], h'.phase.trans h.phase,
    fun d hd => (h.others d hd).trans (h'.others d hd), ?_⟩
  obtain ⟨b, C, l, rfl⟩ := h.frame
  obtain ⟨b', C', l', rfl⟩ := h'.frame
  exact ⟨b', C', l', rfl⟩

theorem Released.free {s' : State K V} {ph' : ContextId → Phase} {kept : List BarrierToken}
    (h : Released q s s' ph c kept ph') (d : ContextId) : ph' d = .free ↔ ph d = .free := by
  by_cases hd : d = c
  · rw [hd, h.phase]
  · exact (h.others d hd).free

/-- **A token is given back**, and the barrier offered to its queue. -/
theorem Placed.giveBack (h : Placed q s ph (some c)) {n : Nat} (hph : ph c = .io n)
    (kept : List BarrierToken) (token : BarrierToken) (hperm : (s.held c).Perm (token :: kept)) :
    ∃ ph', Released q s (s.giveBack c kept token) ph c kept ph' := by
  have hc : c.index < q := h.lists.bound c (by rw [hph]; nofun)
  refine State.offerBarrier_induct (P := fun s' => ∃ ph', Released q s s' ph c kept ph') ?_ _ _ ?_
  · rintro s' d type rest ⟨ph', hr⟩ hQ hg
    have hfront : ph' d = .queued token.barrierId type := hr.placed.lists.front hQ
    have hd : d ≠ c := by
      rintro rfl
      rw [hr.phase, hph] at hfront
      cases hfront
    refine ⟨_, hr.placed.fire (fun hc => hd (Option.some.inj hc).symm) hQ hg,
      (State.fireContext_other _ _ (Ne.symm hd)).trans hr.self,
      (Function.update_of_ne (Ne.symm hd) _ _).trans hr.phase, fun e he => ?_, ?_⟩
    · refine (hr.others e he).trans ?_
      by_cases hed : e = d
      · subst hed
        exact .inr ⟨_, _, hfront, Function.update_self .., State.fireContext_self _ _⟩
      · exact .inl ⟨Function.update_of_ne hed _ _, State.fireContext_other _ _ hed⟩
    · obtain ⟨b, C, l, rfl⟩ := hr.frame
      exact ⟨_, _, _, rfl⟩
  · refine ⟨ph, ⟨?_, ?_, fun d hd => ?_⟩, Function.update_self .., rfl, fun d hd => ?_,
      _, _, _, rfl⟩
    · have hq : ((s.setContext c { s.contexts c with obtainedBarriers := kept }).setBarrier
          token.barrierId ((s.barriers token.barrierId).sub token.type)).queues = s.queues :=
        State.queues_setBarrier _ (ContextBarrier.pending_sub _ _)
      exact hq ▸ h.lists
    · refine h.tokens.drop hc ?_ ?_
      · simpa [State.held, State.setContext, State.setBarrier] using hperm
      · intro d hd
        simp [State.held, State.setContext, State.setBarrier, hd]
    · exact (h.ctl d hd).congr (State.sameAt_setContext _ (fun hc => hd (by rw [hc]))) rfl id
    · exact .inl ⟨rfl, Function.update_of_ne hd _ _⟩

/-- **`release_all_barriers`**: all tokens but the last `n` are given back. -/
theorem Placed.releaseBarriers (n fuel : Nat) (h : Placed q s ph (some c)) {m : Nat}
    (hph : ph c = .io m) (hfuel : (s.held c).length ≤ fuel + n) :
    ∃ ph', Released q s (State.releaseBarriers c n fuel s) ph c ((s.held c).take n) ph' := by
  induction fuel generalizing s ph with
  | zero =>
      rw [List.take_of_length_le (by omega)]
      exact ⟨ph, .refl h⟩
  | succ fuel ih =>
      rw [State.releaseBarriers]
      split
      · next hdrop =>
          have hle : (s.held c).length ≤ n := List.drop_eq_nil_iff.1 hdrop
          rw [List.take_of_length_le hle]
          exact ⟨ph, .refl h⟩
      · next token rest hdrop =>
          have hsplit : s.held c = (s.held c).take n ++ token :: rest := by
            conv_lhs => rw [← List.take_append_drop n (s.held c)]
            exact congrArg _ hdrop
          have hlen : ((s.held c).take n).length = n := by
            have hl := congrArg List.length hdrop
            simp only [List.length_drop, List.length_cons] at hl
            rw [List.length_take]
            exact Nat.min_eq_left (by unfold State.held; omega)
          obtain ⟨ph', hr⟩ := h.giveBack hph ((s.held c).take n ++ rest) token
            (by conv_lhs => rw [hsplit]
                exact List.perm_middle)
          have hheld := congrArg CallBackContext.obtainedBarriers hr.self
          obtain ⟨ph'', hr'⟩ := ih hr.placed (hr.phase.trans hph) (by
            have hl := congrArg List.length hsplit
            simp only [List.length_append, List.length_cons] at hl
            rw [State.held, hheld, List.length_append]
            omega)
          refine ⟨ph'', ?_⟩
          have htake : (State.held (s.giveBack c ((s.held c).take n ++ rest) token) c).take n
              = (s.held c).take n := by
            rw [State.held, hheld]
            exact List.take_left' hlen
          rw [htake] at hr'
          exact hr.trans hr'

theorem Placed.releaseAllBut (n : Nat) (h : Placed q s ph (some c)) {m : Nat}
    (hph : ph c = .io m) :
    ∃ ph', Released q s (s.releaseAllBut c n) ph c ((s.held c).take n) ph' :=
  h.releaseBarriers n _ hph (Nat.le_add_right _ _)

/-- The front token of a search is given back. -/
theorem Placed.releaseFront (h : Placed q s ph (some c)) {m : Nat} (hph : ph c = .io m)
    (hread : ∀ t ∈ s.held c, t.type = .read) :
    ∃ ph', Released q s (s.releaseFront c) ph c (s.held c).dropLast ph' := by
  rw [State.releaseFront]
  split
  · next hnil =>
      have hn : s.held c = [] := List.getLast?_eq_none_iff.1 hnil
      have hr := Released.refl h
      rw [hn] at hr ⊢
      exact ⟨ph, hr⟩
  · next token hlast =>
      have hsplit : s.held c = (s.held c).dropLast ++ [token] :=
        (List.dropLast_append_getLast? token hlast).symm
      have htype : token = ⟨token.barrierId, .read⟩ := by
        rw [← hread token (by rw [hsplit]; simp)]
      refine h.giveBack hph _ _ ?_
      rw [← htype]
      conv_lhs => rw [hsplit]
      exact List.perm_append_singleton _ _

/-- All tokens of a search are given back, from the front. -/
theorem Placed.releaseFronts (fuel : Nat) (h : Placed q s ph (some c)) {m : Nat}
    (hph : ph c = .io m) (hread : ∀ t ∈ s.held c, t.type = .read)
    (hfuel : (s.held c).length ≤ fuel) :
    ∃ ph', Released q s (State.releaseFronts c fuel s) ph c [] ph' := by
  induction fuel generalizing s ph with
  | zero =>
      have hnil : s.held c = [] := List.length_eq_zero_iff.1 (by omega)
      have hr := Released.refl h
      rw [hnil] at hr
      exact ⟨ph, hr⟩
  | succ fuel ih =>
      obtain ⟨ph', hr⟩ := h.releaseFront hph hread
      have hheld : (s.releaseFront c).held c = (s.held c).dropLast :=
        congrArg CallBackContext.obtainedBarriers hr.self
      obtain ⟨ph'', hr'⟩ := ih hr.placed (hr.phase.trans hph)
        (by rw [hheld]
            exact fun t ht => hread t (List.mem_of_mem_dropLast ht))
        (by rw [hheld, List.length_dropLast]
            omega)
      exact ⟨ph'', hr.trans hr'⟩

/-! ## §6. I/O. -/

theorem Ctl.setBuffer (h : Ctl s ph c) (d : ContextId) (b : Option (Block K V)) :
    Ctl (s.setBuffer d b) ph c := by
  cases d with
  | search j =>
      refine ⟨?_, h.ready, h.read⟩
      have hst := h.state
      cases c with
      | search i =>
          by_cases hij : i = j
          · subst hij
            cases hp : ph (.search i) <;>
              simpa [SearchCtl, hp, State.setBuffer, State.setSearch] using hst
          · simpa [State.setBuffer, State.setSearch, hij] using hst
      | insert i => exact hst
  | insert j =>
      refine ⟨?_, h.ready, h.read⟩
      have hst := h.state
      cases c with
      | search i => exact hst
      | insert i =>
          by_cases hij : i = j
          · subst hij
            cases hp : ph (.insert i) <;>
              simpa [InsertCtl, hp, State.setBuffer, State.setInsert] using hst
          · simpa [State.setBuffer, State.setInsert, hij] using hst

/-- The effect of a read or write moves no context. -/
theorem Placed.apply (h : Placed q s ph run) (io : PendingIo K V) :
    Placed q (s.apply io) ph run := by
  unfold State.apply
  split
  · obtain ⟨hl, ht, hctl⟩ := h
    refine ⟨?_, ?_, fun d hd => (hctl d hd).setBuffer _ _⟩ <;> cases io.context
    · exact hl
    · exact hl
    · exact ht
    · exact ht
  · exact ⟨h.lists, h.tokens, fun d hd =>
      (h.ctl d hd).congr ⟨rfl, by cases d <;> rfl⟩ rfl id⟩

/-- The I/O of one context changes. -/
theorem Lists.recount {a b k k' io io' : List ContextId}
    {Q : BlkAddress → List (ContextId × BarrierType)} {fs fi : List Nat}
    (h : Lists q a b k io Q fs fi ph) {n n' : Nat} (hold : ph c = .io n)
    (hk : ∀ d, k'.count d + io'.count d = (Function.update ph c (.io n') d).ios) :
    Lists q a b k' io' Q fs fi (Function.update ph c (.io n')) := by
  have hph : ∀ d (r : Phase), (∀ m, r ≠ .io m) →
      (Function.update ph c (.io n') d = r ↔ ph d = r) := by
    intro d r hr
    by_cases hd : d = c
    · subst hd
      rw [Function.update_self, hold]
      exact ⟨fun h => absurd h.symm (hr n'), fun h => absurd h.symm (hr n)⟩
    · rw [Function.update_of_ne hd]
  refine ⟨fun d => ?_, fun d => ?_, hk, fun y d t => ?_, fun j => ?_, fun j => ?_, fun d hd => ?_⟩
  · rw [h.admission d]
    simp only [hph d .new nofun]
  · rw [h.barrier d]
    simp only [hph d .granted nofun]
  · rw [h.queue y d t]
    simp only [hph d (.queued y t) nofun]
  · rw [h.freeSearch j]
    simp only [hph _ .free nofun]
  · rw [h.freeInsert j]
    simp only [hph _ .free nofun]
  · exact h.bound d (fun hf => hd ((hph d .free nofun).2 hf))

/-- **An I/O is submitted** by the context that runs. -/
theorem Placed.submitIo (deferred : Bool) (h : Placed q s ph (some c)) {n : Nat}
    (hph : ph c = .io n) (io : PendingIo K V) (hio : io.context = c) :
    Placed q (s.submitIo deferred io) (Function.update ph c (.io (n + 1))) (some c) := by
  have hs : ∃ s', s.submitIo deferred io
      = { s' with pendingIo := s'.pendingIo ++ [{ io with applied := !deferred }] }
      ∧ Placed q s' ph (some c) := by
    cases deferred with
    | false => exact ⟨s.apply io, rfl, h.apply io⟩
    | true => exact ⟨s, rfl, h⟩
  obtain ⟨s', heq, hp⟩ := hs
  rw [heq]
  refine ⟨hp.lists.recount hph (fun d => ?_), hp.tokens, fun d hd => ?_⟩
  · have hcount := hp.lists.io d
    have hl : State.ioContexts { s' with
        pendingIo := s'.pendingIo ++ [{ io with applied := !deferred }] }
        = s'.ioContexts ++ [c] := by
      simp [State.ioContexts, hio]
    rw [hl, List.count_append, List.count_singleton]
    by_cases hd : d = c
    · subst hd
      rw [hph] at hcount
      simp [Phase.ios] at hcount ⊢
      omega
    · simp [hd, Ne.symm hd] at hcount ⊢
      exact hcount
  · have hdc : d ≠ c := fun hc => hd (by rw [hc])
    exact (hp.ctl d hd).congr ⟨rfl, by cases d <;> rfl⟩ (Function.update_of_ne hdc _ _) id

/-- A context without I/O is in no list of completions. -/
theorem Lists.not_ready {a b k io : List ContextId}
    {Q : BlkAddress → List (ContextId × BarrierType)} {fs fi : List Nat}
    (h : Lists q a b k io Q fs fi ph) (hph : (ph c).ios = 0) : c ∉ k := by
  have hio := h.io c
  exact List.count_eq_zero.1 (by omega)

/-! ## §7. What leaves the requests alone. -/

/-- Neither the requests of the contexts nor the books about them change. -/
structure State.SameRequests (s s' : State K V) : Prop where
  request : s'.request = s.request
  submitting : s'.submitting = s.submitting
  requestQueue : s'.requestQueue = s.requestQueue
  pendingRequest : s'.pendingRequest = s.pendingRequest
  freeContextSlots : s'.freeContextSlots = s.freeContextSlots
  nextId : s'.nextId = s.nextId
  log : s'.log = s.log

namespace State.SameRequests

theorem trans {s s' s'' : State K V} (h : s.SameRequests s') (h' : s'.SameRequests s'') :
    s.SameRequests s'' :=
  ⟨h'.request.trans h.request, h'.submitting.trans h.submitting,
    h'.requestQueue.trans h.requestQueue, h'.pendingRequest.trans h.pendingRequest,
    h'.freeContextSlots.trans h.freeContextSlots, h'.nextId.trans h.nextId, h'.log.trans h.log⟩

theorem setInsert (s : State K V) {i : Nat} {x : InsertContext K V}
    (hx : x.request = (s.inserts i).request) : s.SameRequests (s.setInsert i x) := by
  refine ⟨?_, rfl, rfl, rfl, rfl, rfl, rfl⟩
  funext d
  cases d with
  | search j => rfl
  | insert j =>
      by_cases hj : j = i
      · subst hj
        simp [State.request, State.setInsert, hx]
      · simp [State.request, State.setInsert, hj]

theorem setSearch (s : State K V) {i : Nat} {x : SearchContext K V}
    (hx : x.request = (s.searches i).request) : s.SameRequests (s.setSearch i x) := by
  refine ⟨?_, rfl, rfl, rfl, rfl, rfl, rfl⟩
  funext d
  cases d with
  | search j =>
      by_cases hj : j = i
      · subst hj
        simp [State.request, State.setSearch, hx]
      · simp [State.request, State.setSearch, hj]
  | insert j => rfl

/-- Changes outside the data of the two kinds of contexts. -/
theorem of_eq {s s' : State K V} (hs : s'.searches = s.searches) (hi : s'.inserts = s.inserts)
    (h1 : s'.submitting = s.submitting) (h2 : s'.requestQueue = s.requestQueue)
    (h3 : s'.pendingRequest = s.pendingRequest) (h4 : s'.freeContextSlots = s.freeContextSlots)
    (h5 : s'.nextId = s.nextId) (h6 : s'.log = s.log) : s.SameRequests s' := by
  refine ⟨?_, h1, h2, h3, h4, h5, h6⟩
  funext d
  cases d with
  | search j => simp only [State.request, hs]
  | insert j => simp only [State.request, hi]

theorem setContext (s : State K V) (c : ContextId) (b : CallBackContext) :
    s.SameRequests (s.setContext c b) := of_eq rfl rfl rfl rfl rfl rfl rfl rfl

theorem setBarrier (s : State K V) (x : BlkAddress) (b : ContextBarrier ContextId) :
    s.SameRequests (s.setBarrier x b) := of_eq rfl rfl rfl rfl rfl rfl rfl rfl

theorem of_barriers {s s' : State K V} (h : s.BarriersOnly s') : s.SameRequests s' := by
  obtain ⟨b, C, l, rfl⟩ := h
  exact of_eq rfl rfl rfl rfl rfl rfl rfl rfl

theorem apply (s : State K V) (io : PendingIo K V) : s.SameRequests (s.apply io) := by
  unfold State.apply
  split
  · cases io.context with
    | search i => exact setSearch s rfl
    | insert i => exact setInsert s rfl
  · exact of_eq rfl rfl rfl rfl rfl rfl rfl rfl

theorem submitIo (deferred : Bool) (s : State K V) (io : PendingIo K V) :
    s.SameRequests (s.submitIo deferred io) := by
  cases deferred with
  | false => exact (apply s io).trans (of_eq rfl rfl rfl rfl rfl rfl rfl rfl)
  | true => exact of_eq rfl rfl rfl rfl rfl rfl rfl rfl

theorem books {s s' : State K V} {request : ContextId → Option (Request K V)}
    (hs : s.SameRequests s') (h : PullBasedBPlusTree.Requests q request s.submitting
      s.requestQueue s.pendingRequest s.freeContextSlots s.nextId s.log ph) :
    PullBasedBPlusTree.Requests q request s'.submitting s'.requestQueue s'.pendingRequest
      s'.freeContextSlots s'.nextId s'.log ph := by
  rw [hs.submitting, hs.requestQueue, hs.pendingRequest, hs.freeContextSlots, hs.nextId, hs.log]
  exact h

end State.SameRequests

theorem activeCount_congr {ph' : ContextId → Phase} (h : ∀ d, ph' d = .free ↔ ph d = .free) :
    activeCount q ph' = activeCount q ph := by
  unfold activeCount
  simp only [h]

theorem servingCount_congr {request : ContextId → Option (Request K V)}
    {ph' : ContextId → Phase} (h : ∀ d, ph' d = .free ↔ ph d = .free) (id : Nat) :
    servingCount q request ph' id = servingCount q request ph id := by
  unfold servingCount
  simp only [ne_eq, h]

theorem State.Requests.same {s' : State K V} {ph' : ContextId → Phase} (h : s.Requests q ph)
    (hs : s.SameRequests s') (hfree : ∀ d, ph' d = .free ↔ ph d = .free) : s'.Requests q ph' := by
  unfold State.Requests at h ⊢
  rw [hs.request]
  refine hs.books ⟨fun c hc => h.active c (fun hf => hc ((hfree c).2 hf)), h.waiting, h.traced, ?_,
    h.slots_nonneg, ?_, fun id => ?_, h.fresh, h.ids, h.admittedIds, fun r hr => ?_, h.unfinished_eq,
    h.inProgress_eq, h.callback, h.semaphore, h.known⟩
  · rw [activeCount_congr hfree]
    exact h.slots_eq
  · rw [activeCount_congr hfree]
    exact h.pending_eq
  · rw [servingCount_congr hfree]
    exact h.conserve id
  · rw [servingCount_congr hfree]
    exact h.served r hr

/-- The phase of one context in use changes to another one in use. -/
theorem free_update {p : Phase} (hold : ph c ≠ .free) (hp : p ≠ .free) (d : ContextId) :
    Function.update ph c p d = .free ↔ ph d = .free := by
  by_cases hd : d = c
  · subst hd
    rw [Function.update_self]
    exact ⟨fun h => absurd h hp, fun h => absurd h hold⟩
  · rw [Function.update_of_ne hd]

/-! ## §8. The end of a request, and its admission. -/

/-- The phase of one context changes between free, new and running. -/
theorem Lists.reslot {a a' b k io : List ContextId}
    {Q : BlkAddress → List (ContextId × BarrierType)} {fs fs' fi fi' : List Nat}
    (h : Lists q a b k io Q fs fi ph) {p : Phase}
    (hold : ph c = .free ∨ ph c = .new ∨ ph c = .io 0) (hnew : p = .free ∨ p = .new ∨ p = .io 0)
    (hbound : p ≠ .free → c.index < q)
    (ha : ∀ d, a'.count d = if Function.update ph c p d = .new then 1 else 0)
    (hfs : ∀ j, fs'.count j = if Function.update ph c p (.search j) = .free ∧ j < q then 1 else 0)
    (hfi : ∀ j, fi'.count j = if Function.update ph c p (.insert j) = .free ∧ j < q then 1 else 0) :
    Lists q a' b k io Q fs' fi' (Function.update ph c p) := by
  have hph : ∀ d (r : Phase), r ≠ .free → r ≠ .new → r ≠ .io 0 →
      (Function.update ph c p d = r ↔ ph d = r) := by
    intro d r h1 h2 h3
    by_cases hd : d = c
    · subst hd
      rw [Function.update_self]
      constructor
      · rintro rfl
        rcases hnew with h | h | h
        · exact absurd h h1
        · exact absurd h h2
        · exact absurd h h3
      · rintro rfl
        rcases hold with h | h | h
        · exact absurd h h1
        · exact absurd h h2
        · exact absurd h h3
    · rw [Function.update_of_ne hd]
  refine ⟨ha, fun d => ?_, fun d => ?_, fun y d t => ?_, hfs, hfi, fun d hd => ?_⟩
  · rw [h.barrier d]
    simp only [hph d .granted nofun nofun nofun]
  · rw [h.io d]
    by_cases hd : d = c
    · subst hd
      rw [Function.update_self]
      rcases hold with h1 | h1 | h1 <;> rcases hnew with h2 | h2 | h2 <;> rw [h1, h2] <;> rfl
    · rw [Function.update_of_ne hd]
  · rw [h.queue y d t]
    simp only [hph d (.queued y t) nofun nofun nofun]
  · by_cases hdc : d = c
    · subst hdc
      rw [Function.update_self] at hd
      exact hbound hd
    · rw [Function.update_of_ne hdc] at hd
      exact h.bound d hd

/-- What the clients see of the lists is no part of where the contexts are. -/
theorem Placed.client (h : Placed q s ph run) (submitting requestQueue : List (Request K V))
    (pendingRequest freeContextSlots : Int) (workingThreadTerminateFlag : Bool) (nextId : Nat)
    (log : List (LogEvent K V)) :
    Placed q { s with
      submitting := submitting
      requestQueue := requestQueue
      pendingRequest := pendingRequest
      freeContextSlots := freeContextSlots
      workingThreadTerminateFlag := workingThreadTerminateFlag
      nextId := nextId
      log := log } ph run :=
  ⟨h.lists, h.tokens, fun d hd => (h.ctl d hd).congr ⟨rfl, by cases d <;> rfl⟩ rfl id⟩

/-- **A context returns to its stack.** -/
theorem Placed.freeInsert {i : Nat} (h : Placed q s ph (some (.insert i)))
    (hph : ph (.insert i) = .io 0) (hheld : s.held (.insert i) = []) :
    Placed q { s with freeInsertContexts := i :: s.freeInsertContexts }
      (Function.update ph (.insert i) .free) none := by
  have hbound := h.lists.bound (.insert i) (by simp [hph])
  refine Placed.park (c := .insert i) ⟨?_, h.tokens, fun d hd => ?_⟩ ⟨?_, ?_, nofun⟩
  · refine h.lists.reslot (.inr (.inr hph)) (.inl rfl) (fun hne => absurd rfl hne) (fun d => ?_)
      (fun j => ?_) (fun j => ?_)
    · refine (h.lists.admission d).trans ?_
      by_cases hd : d = .insert i
      · simp [hd, hph]
      · simp [hd]
    · exact (h.lists.freeSearch j).trans (by simp)
    · have hj := h.lists.freeInsert j
      simp only [List.count_cons]
      by_cases hji : j = i
      · subst hji
        simp only [ContextId.index] at hbound
        simp [hph] at hj
        simp [hj, hbound]
      · simp [hji, Ne.symm hji, hj]
  · have hdc : d ≠ .insert i := fun hc => hd (by rw [hc])
    exact (h.ctl d hd).congr ⟨rfl, by cases d <;> rfl⟩ (Function.update_of_ne hdc _ _) id
  · simp only [Function.update_self]
    exact hheld
  · intro hm
    exact absurd hm (h.lists.not_ready (by simp [hph, Phase.ios]))

theorem Placed.freeSearch {i : Nat} (h : Placed q s ph (some (.search i)))
    (hph : ph (.search i) = .io 0) (hheld : s.held (.search i) = []) :
    Placed q { s with freeSearchContexts := i :: s.freeSearchContexts }
      (Function.update ph (.search i) .free) none := by
  have hbound := h.lists.bound (.search i) (by simp [hph])
  refine Placed.park (c := .search i) ⟨?_, h.tokens, fun d hd => ?_⟩ ⟨?_, ?_, ?_⟩
  · refine h.lists.reslot (.inr (.inr hph)) (.inl rfl) (fun hne => absurd rfl hne) (fun d => ?_)
      (fun j => ?_) (fun j => ?_)
    · refine (h.lists.admission d).trans ?_
      by_cases hd : d = .search i
      · simp [hd, hph]
      · simp [hd]
    · have hj := h.lists.freeSearch j
      simp only [List.count_cons]
      by_cases hji : j = i
      · subst hji
        simp only [ContextId.index] at hbound
        simp [hph] at hj
        simp [hj, hbound]
      · simp [hji, Ne.symm hji, hj]
    · exact (h.lists.freeInsert j).trans (by simp)
  · have hdc : d ≠ .search i := fun hc => hd (by rw [hc])
    exact (h.ctl d hd).congr ⟨rfl, by cases d <;> rfl⟩ (Function.update_of_ne hdc _ _) id
  · simp only [Function.update_self]
    exact hheld
  · intro hm
    exact absurd hm (h.lists.not_ready (by simp [hph, Phase.ios]))
  · intro j _ t ht
    change t ∈ s.held (.search i) at ht
    rw [hheld] at ht
    cases ht

/-- The events of the end of a request. -/
def doneEvents (r : Request K V) (done : LogEvent K V) : List (LogEvent K V) :=
  (if r.cbF then [LogEvent.callback r.id] else [])
    ++ (if r.semaphore then [LogEvent.release r.id] else []) ++ [done]

/-- `done` is the end of the request `r`. -/
def LogEvent.Ends (r : Request K V) (done : LogEvent K V) : Prop :=
  (∃ v, done = .finishSearch r.id v) ∨ done = .finishInsert r.id

theorem countP_finishes_done {r : Request K V} {done : LogEvent K V} (h : done.Ends r) (id : Nat) :
    (doneEvents r done).countP (LogEvent.finishes id) = if r.id = id then 1 else 0 := by
  rcases h with ⟨v, rfl⟩ | rfl <;> unfold doneEvents <;> cases r.cbF <;> cases r.semaphore <;>
    simp [LogEvent.finishes, List.countP_cons]

theorem countP_callback_done {r : Request K V} {done : LogEvent K V} (h : done.Ends r) (id : Nat) :
    (doneEvents r done).countP (LogEvent.isCallback id)
      = if r.cbF = true ∧ r.id = id then 1 else 0 := by
  rcases h with ⟨v, rfl⟩ | rfl <;> unfold doneEvents <;> cases r.cbF <;> cases r.semaphore <;>
    simp [LogEvent.isCallback, List.countP_cons]

theorem countP_release_done {r : Request K V} {done : LogEvent K V} (h : done.Ends r) (id : Nat) :
    (doneEvents r done).countP (LogEvent.isRelease id)
      = if r.semaphore = true ∧ r.id = id then 1 else 0 := by
  rcases h with ⟨v, rfl⟩ | rfl <;> unfold doneEvents <;> cases r.cbF <;> cases r.semaphore <;>
    simp [LogEvent.isRelease, List.countP_cons]

theorem submitted_done {r : Request K V} {done : LogEvent K V} (h : done.Ends r)
    (log : List (LogEvent K V)) : submitted (log ++ doneEvents r done) = submitted log := by
  unfold submitted doneEvents
  rcases h with ⟨v, rfl⟩ | rfl <;> cases r.cbF <;> cases r.semaphore <;>
    simp [LogEvent.asSubmit]

theorem admitted_done {r : Request K V} {done : LogEvent K V} (h : done.Ends r)
    (log : List (LogEvent K V)) : admitted (log ++ doneEvents r done) = admitted log := by
  unfold admitted doneEvents
  rcases h with ⟨v, rfl⟩ | rfl <;> cases r.cbF <;> cases r.semaphore <;>
    simp [LogEvent.asAdmission]

theorem finishCount_done {r r' : Request K V} {done : LogEvent K V} (h : done.Ends r)
    (log : List (LogEvent K V)) : finishCount (log ++ doneEvents r done) r'
      = finishCount log r' + if r.id = r'.id then 1 else 0 := by
  rw [finishCount, List.countP_append, countP_finishes_done h]
  rfl

/-- Of the requests in a list, one is not unfinished any more. -/
theorem length_filter_done {l : List (Request K V)} {log : List (LogEvent K V)} {r : Request K V}
    {done : LogEvent K V} (h : done.Ends r) (hnd : (l.map Request.id).Nodup) (hr : r ∈ l)
    (hzero : finishCount log r = 0) :
    (l.filter (fun r' => finishCount (log ++ doneEvents r done) r' = 0)).length + 1
      = (l.filter (fun r' => finishCount log r' = 0)).length := by
  obtain ⟨a, b, rfl⟩ := List.append_of_mem hr
  rw [List.map_append, List.map_cons] at hnd
  have hnot : ∀ r' ∈ a ++ b, r.id ≠ r'.id := by
    intro r' hm he
    have hnd' := (List.nodup_middle.1 hnd)
    rw [List.nodup_cons, he] at hnd'
    refine hnd'.1 ?_
    rw [← List.map_append]
    exact List.mem_map_of_mem hm
  have hsame : ∀ c : List (Request K V), (∀ r' ∈ c, r' ∈ a ++ b) →
      c.filter (fun r' => finishCount (log ++ doneEvents r done) r' = 0)
        = c.filter (fun r' => finishCount log r' = 0) := by
    intro c hc
    refine List.filter_congr (fun r' hm => ?_)
    rw [finishCount_done h, if_neg (hnot r' (hc r' hm)), Nat.add_zero]
  rw [List.filter_append, List.filter_append, List.filter_cons, List.filter_cons,
    hsame a (fun r' hm => List.mem_append_left b hm),
    hsame b (fun r' hm => List.mem_append_right a hm)]
  simp only [finishCount_done h, hzero, if_true, decide_true, List.length_append, List.length_cons]
  simp only [Nat.zero_add, Nat.one_ne_zero, decide_false, Bool.false_eq_true, if_false]
  omega

section Counting

variable {request request' : ContextId → Option (Request K V)} {ph' : ContextId → Phase}
  {submitting queue : List (Request K V)} {pending slots : Int} {nextId : Nat}
  {log : List (LogEvent K V)}

/-- One context more is in use. -/
theorem activeCount_succ (hc : c.index < q) (hold : ph c = .free) (hnew : ph' c ≠ .free)
    (hother : ∀ d, d ≠ c → (ph' d = .free ↔ ph d = .free)) :
    activeCount q ph' = activeCount q ph + 1 := by
  have hsum := sum_change hc (f := fun d => if ph d = .free then 0 else 1)
    (g := fun d => if ph' d = .free then 0 else 1) (fun d hd => by simp only [hother d hd])
  simp only [hold, if_true, if_neg hnew] at hsum
  unfold activeCount
  omega

/-- One context more serves the request it has got. -/
theorem servingCount_succ {r : Request K V} (hc : c.index < q) (hold : ph c = .free)
    (hnew : ph' c ≠ .free) (hr : request' c = some r)
    (hother : ∀ d, d ≠ c → (ph' d = .free ↔ ph d = .free) ∧ request' d = request d) (id : Nat) :
    servingCount q request' ph' id
      = servingCount q request ph id + if r.id = id then 1 else 0 := by
  have hsum := sum_change hc
    (f := fun d => if ph d ≠ .free ∧ (request d).map Request.id = some id then 1 else 0)
    (g := fun d => if ph' d ≠ .free ∧ (request' d).map Request.id = some id then 1 else 0)
    (fun d hd => by simp only [ne_eq, (hother d hd).1, (hother d hd).2])
  simp only [hold, hr, ne_eq, not_true_eq_false, false_and, if_false, hnew, not_false_eq_true,
    true_and, Option.map_some, Option.some.injEq] at hsum
  unfold servingCount
  omega

/-- A submitted request is known by its number. -/
theorem Requests.request_eq (h : Requests q request submitting queue pending slots nextId log ph)
    {r r' : Request K V} (hr : r ∈ submitted log) (hr' : r' ∈ submitted log)
    (hid : r.id = r'.id) : r = r' :=
  List.inj_on_of_nodup_map h.ids hr hr' hid

/-- **A request is served by one context.** -/
theorem Requests.serving_unique
    (h : Requests q request submitting queue pending slots nextId log ph) {d : ContextId}
    {r r' : Request K V} (hc : c.index < q) (hd : d.index < q) (hcph : ph c ≠ .free)
    (hdph : ph d ≠ .free) (hr : request c = some r) (hr' : request d = some r')
    (hid : r.id = r'.id) : c = d := by
  by_contra hne
  have hsum := add_le_sum hc hd hne
    (fun e => if ph e ≠ .free ∧ (request e).map Request.id = some r.id then 1 else 0)
  simp only [hcph, hdph, hr, hr', hid, ne_eq, not_false_eq_true, Option.map_some, and_self,
    if_true] at hsum
  have hcons := h.conserve r'.id
  unfold servingCount at hcons
  simp only [ne_eq] at hcons
  split at hcons <;> omega

/-- **A request ends**: its context is free, its client is told. -/
theorem Requests.finish (h : Requests q request submitting queue pending slots nextId log ph)
    {r : Request K V} {done : LogEvent K V} (hdone : done.Ends r) (hc : c.index < q)
    (hold : ph c ≠ .free) (hr : request c = some r) (hnew : ph' c = .free)
    (hother : ∀ d, d ≠ c → (ph' d = .free ↔ ph d = .free) ∧ request' d = request d) :
    Requests q request' submitting queue (pending - 1) (slots + 1) nextId
      (log ++ doneEvents r done) ph' := by
  obtain ⟨r', hr', hlog, hadm⟩ := h.active c hold
  obtain rfl : r = r' := Option.some.inj (hr.symm.trans hr')
  have hback : ∀ d, d ≠ c → (ph d = .free ↔ ph' d = .free) ∧ request d = request' d :=
    fun d hd => ⟨(hother d hd).1.symm, (hother d hd).2.symm⟩
  have hactive := activeCount_succ hc hnew hold (fun d hd => (hback d hd).1)
  have hserving := servingCount_succ hc hnew hold hr hback
  -- it is served once, so it has not finished before
  have hzero : finishCount log r = 0 := by
    have hcons := h.conserve r.id
    have hone := hserving r.id
    rw [if_pos rfl] at hone
    rw [if_pos (h.fresh r hlog)] at hcons
    unfold finishCount
    omega
  have hsub := submitted_done hdone log
  have hadmitted := admitted_done hdone log
  refine ⟨fun d hd => ?_, hsub ▸ h.waiting, fun r' => ?_, ?_, ?_, ?_, fun id => ?_, hsub ▸ h.fresh,
    hsub ▸ h.ids, hadmitted ▸ h.admittedIds, fun r' hm => ?_, ?_, ?_, fun r' hm => ?_,
    fun r' hm => ?_, fun id hid => ?_⟩
  · have hdc : d ≠ c := by
      rintro rfl
      exact hd hnew
    obtain ⟨r', h1, h2⟩ := h.active d (fun hf => hd ((hother d hdc).1.2 hf))
    rw [hsub, hadmitted]
    exact ⟨r', (hother d hdc).2.trans h1, h2⟩
  · rw [hsub, hadmitted]
    exact h.traced r'
  · have hs := h.slots_eq
    omega
  · have hs := h.slots_nonneg
    omega
  · have hp := h.pending_eq
    omega
  · rw [List.countP_append, countP_finishes_done hdone, ← h.conserve id, hserving id]
    omega
  · have hone := h.served r' (hadmitted ▸ hm)
    rw [hserving r'.id] at hone
    rw [finishCount_done hdone]
    omega
  · have hlen := length_filter_done hdone h.ids hlog hzero
    have hu := h.unfinished_eq
    rw [unfinished, hsub]
    rw [unfinished] at hu
    omega
  · have hlen := length_filter_done hdone h.admittedIds hadm hzero
    have hu := h.inProgress_eq
    rw [inProgress, hadmitted]
    rw [inProgress] at hu
    omega
  · rw [hsub] at hm
    rw [List.countP_append, countP_callback_done hdone, finishCount_done hdone, h.callback r' hm]
    by_cases hid : r.id = r'.id
    · obtain rfl := h.request_eq hlog hm hid
      cases r.cbF <;> simp
    · simp [hid]
  · rw [hsub] at hm
    rw [List.countP_append, countP_release_done hdone, finishCount_done hdone, h.semaphore r' hm]
    by_cases hid : r.id = r'.id
    · obtain rfl := h.request_eq hlog hm hid
      cases r.semaphore <;> simp
    · simp [hid]
  · have hlt := h.fresh r hlog
    have hne : r.id ≠ id := by omega
    rw [List.countP_append, List.countP_append, countP_callback_done hdone,
      countP_release_done hdone]
    simp [hne, h.known id hid]

end Counting

end PullBasedBPlusTree

end NvmTree
