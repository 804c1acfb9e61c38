/-
  NvmTree.Pull.Barrier — one `context_barrier` under any sequence of calls.

  A request is granted at once if the counters allow it, past the queue; otherwise
  it waits.  Removing a barrier fires waiting requests from the front of the queue
  for as long as the counters allow.  The run keeps what was requested, what was
  queued, what was granted and how, and what was removed.

  Main results:
    * `offerBarrier_fires` — what one `offer_barrier` does, from start to end.
    * `run_barrierOk` — after any calls that remove only granted barriers: the front
      of the queue cannot be granted; each request was granted at once, waits, or
      was fired once; and the queue is fired in order.
-/
import NvmTree.Pull.Prompt

namespace NvmTree

open RangeTree

namespace PullBasedBPlusTree

variable {K V : Type*} {s s' : State K V} {x : BlkAddress}

/-! ## §1. Calls on one barrier. -/

/-- How a request was granted. -/
inductive Grant where
  | atOnce
  | fired
  deriving Repr, DecidableEq

/-- A request that was granted. -/
structure GrantRecord where
  context : ContextId
  type : BarrierType
  grant : Grant
  deriving Repr, DecidableEq

/-- The requests granted in one of the two ways. -/
def GrantRecord.requests (grant : Grant) (l : List GrantRecord) : List (ContextId × BarrierType) :=
  (l.filter (fun g => decide (g.grant = grant))).map (fun g => (g.context, g.type))

/-- What a grant does to its context: it gets the token, and one that waited moves
on to its next state. -/
def CallBackContext.grant (x : BlkAddress) (b : CallBackContext) (g : GrantRecord) :
    CallBackContext :=
  match g.grant with
  | .atOnce => { b with obtainedBarriers := ⟨x, g.type⟩ :: b.obtainedBarriers }
  | .fired => b.fired ⟨x, g.type⟩

inductive BarrierCall where
  /-- `set_read_barrier` and `set_write_barrier`. -/
  | set (c : ContextId) (type : BarrierType)
  /-- `remove_read_barrier` and `remove_write_barrier`. -/
  | remove (type : BarrierType)
  deriving Repr, DecidableEq

/-- The state, and the history of the barrier `x`. -/
structure BarrierRun (K V : Type*) where
  state : State K V
  requested : List (ContextId × BarrierType)
  queued : List (ContextId × BarrierType)
  granted : List GrantRecord
  removed : List BarrierType

namespace BarrierRun

def pending (x : BlkAddress) (r : BarrierRun K V) : List (ContextId × BarrierType) :=
  (r.state.barriers x).pendingBarrierRequests

def step (x : BlkAddress) (r : BarrierRun K V) : BarrierCall → BarrierRun K V
  | .set c type =>
      match r.state.requestBarrier c x type with
      | (state, true) =>
          { r with
            state
            requested := r.requested ++ [(c, type)]
            granted := r.granted ++ [⟨c, type, .atOnce⟩] }
      | (state, false) =>
          { r with
            state
            requested := r.requested ++ [(c, type)]
            queued := r.queued ++ [(c, type)] }
  | .remove type =>
      let state := r.state.removeBarrier x type
      -- what the queue has lost in front was fired
      let fired := (r.pending x).take
        ((r.pending x).length - (state.barriers x).pendingBarrierRequests.length)
      { r with
        state
        granted := r.granted ++ fired.map (fun p => ⟨p.1, p.2, .fired⟩)
        removed := r.removed ++ [type] }

def run (x : BlkAddress) (r : BarrierRun K V) (calls : List BarrierCall) : BarrierRun K V :=
  calls.foldl (step x) r

/-- Before any call. -/
def start (s : State K V) : BarrierRun K V := ⟨s, [], [], [], []⟩

def grantedOf (r : BarrierRun K V) (type : BarrierType) : Nat :=
  r.granted.countP (fun g => decide (g.type = type))

/-- The requests granted in one of the two ways, in the order of their grants. -/
def grantedBy (r : BarrierRun K V) (grant : Grant) : List (ContextId × BarrierType) :=
  GrantRecord.requests grant r.granted

/-- Only a barrier that was granted and not removed yet is removed. -/
def Allowed (x : BlkAddress) : BarrierRun K V → List BarrierCall → Prop
  | _, [] => True
  | r, call :: calls =>
      (∀ type, call = .remove type → r.removed.count type < r.grantedOf type)
        ∧ Allowed x (r.step x call) calls

/-- What holds of the barrier `x` and its requests after calls from `s₀` on. -/
structure Ok (s₀ : State K V) (x : BlkAddress) (r : BarrierRun K V) : Prop where
  reads : (r.state.barriers x).readBarriers = r.grantedOf .read - r.removed.count .read
  writes : (r.state.barriers x).writeBarriers = r.grantedOf .write - r.removed.count .write
  /-- The front of the queue cannot be granted. -/
  readHead : ∀ c rest, r.pending x = (c, .read) :: rest → (r.state.barriers x).writeBarriers = 1
  writeHead : ∀ c rest, r.pending x = (c, .write) :: rest →
    0 < (r.state.barriers x).readBarriers + (r.state.barriers x).writeBarriers
  /-- A request is granted at once or queued. -/
  once : ∀ p, r.requested.count p = (r.grantedBy .atOnce).count p + r.queued.count p
  /-- Queued requests are fired once each, in order; the others still wait. -/
  order : r.queued = r.grantedBy .fired ++ r.pending x
  /-- A grant gives the token, and firing advances the state as well. -/
  contexts : ∀ c, r.state.contexts c
    = (r.granted.filter (fun g => decide (g.context = c))).foldl (CallBackContext.grant x)
        (s₀.contexts c)
  /-- Firing pushes the context to `ready_contexts_`. -/
  ready : r.state.barrierReadyContexts
    = s₀.barrierReadyContexts ++ (r.grantedBy .fired).map Prod.fst

end BarrierRun

/-! ## §2. What `offer_barrier` fires. -/

/-- The counter of a type. -/
def ContextBarrier.count {C : Type*} (b : ContextBarrier C) : BarrierType → Int
  | .read => b.readBarriers
  | .write => b.writeBarriers

/-- The counters that grants leave: no two writers, no writer with a reader. -/
structure ContextBarrier.Exclusive {C : Type*} (b : ContextBarrier C) : Prop where
  reads : 0 ≤ b.readBarriers
  writes : 0 ≤ b.writeBarriers
  one : b.writeBarriers ≤ 1
  alone : 0 < b.writeBarriers → b.readBarriers = 0

theorem ContextBarrier.count_add {C : Type*} (b : ContextBarrier C) (type t : BarrierType) :
    (b.add type).count t = b.count t + if t = type then 1 else 0 := by
  cases type <;> cases t <;> simp [ContextBarrier.add, ContextBarrier.count]

theorem ContextBarrier.Exclusive.add {C : Type*} {b : ContextBarrier C} (h : b.Exclusive)
    {type : BarrierType} (hg : b.grants type = true) : (b.add type).Exclusive := by
  obtain ⟨h1, h2, h3, h4⟩ := h
  cases type <;> simp only [ContextBarrier.grants, ContextBarrier.add, decide_eq_true_eq,
    Bool.and_eq_true] at hg ⊢ <;> constructor <;> simp only <;> omega

/-- From `s` to `s'` the requests `fired` were fired, in this order. -/
structure Fires (x : BlkAddress) (s s' : State K V) (fired : List (ContextId × BarrierType)) :
    Prop where
  queue : (s.barriers x).pendingBarrierRequests
    = fired ++ (s'.barriers x).pendingBarrierRequests
  count : ∀ t, (s'.barriers x).count t
    = (s.barriers x).count t + fired.countP (fun p => decide (p.2 = t))
  contexts : ∀ c, s'.contexts c
    = (fired.filter (fun p => decide (p.1 = c))).foldl (fun b p => b.fired ⟨x, p.2⟩) (s.contexts c)
  ready : s'.barrierReadyContexts = s.barrierReadyContexts ++ fired.map Prod.fst

theorem Fires.refl (s : State K V) : Fires x s s [] :=
  ⟨rfl, fun _ => by simp, fun _ => rfl, by simp⟩

theorem State.fireContext_barrier (s : State K V) (c : ContextId) (type : BarrierType)
    (rest : List (ContextId × BarrierType)) :
    (s.fireContext x c type rest).barriers x
      = { (s.barriers x).add type with pendingBarrierRequests := rest } := by
  simp [State.fireContext, State.addToken, State.transition, State.setContext, State.setBarrier]

/-- One request is fired, and others after it. -/
theorem Fires.fireContext {c : ContextId} {type : BarrierType}
    {rest fired : List (ContextId × BarrierType)}
    (hq : (s.barriers x).pendingBarrierRequests = (c, type) :: rest)
    (h : Fires x (s.fireContext x c type rest) s' fired) :
    Fires x s s' ((c, type) :: fired) := by
  have hb := s.fireContext_barrier (x := x) c type rest
  refine ⟨?_, fun t => ?_, fun d => ?_, ?_⟩
  · have := h.queue
    rw [hb] at this
    rw [hq, List.cons_append, ← this]
  · have hadd := (s.barriers x).count_add type t
    have hcount := h.count t
    rw [hb] at hcount
    have hsame : ({ (s.barriers x).add type with pendingBarrierRequests := rest } :
        ContextBarrier ContextId).count t = ((s.barriers x).add type).count t := by
      cases t <;> rfl
    rw [hsame, hadd] at hcount
    rw [hcount, List.countP_cons]
    by_cases ht : t = type
    · simp [ht]; omega
    · simp [ht, Ne.symm ht]
  · rw [h.contexts d]
    by_cases hd : d = c
    · subst hd
      rw [State.fireContext_self, List.filter_cons_of_pos (by simp)]
      rfl
    · rw [State.fireContext_other s rest hd, List.filter_cons_of_neg (by simpa using Ne.symm hd)]
  · rw [h.ready]
    show s.barrierReadyContexts ++ [c] ++ _ = _
    simp

/-- **What `offer_barrier` does**: it fires the queue from the front, and stops
where the front cannot be granted. -/
theorem offerBarrier_fires {fuel : Nat}
    (hfuel : (s.barriers x).pendingBarrierRequests.length ≤ fuel)
    (hex : (s.barriers x).Exclusive) :
    ∃ fired, Fires x s (State.offerBarrier x fuel s) fired
      ∧ ((State.offerBarrier x fuel s).barriers x).Blocked
      ∧ ((State.offerBarrier x fuel s).barriers x).Exclusive := by
  -- each round takes one request off the queue
  induction fuel generalizing s with
  | zero =>
      have hnil : (s.barriers x).pendingBarrierRequests = [] :=
        List.length_eq_zero_iff.1 (by omega)
      exact ⟨[], Fires.refl s, fun p hp => by simp [State.offerBarrier, hnil] at hp, hex⟩
  | succ fuel ih =>
      rw [State.offerBarrier]
      split
      · next hnil => exact ⟨[], Fires.refl s, fun p hp => by simp [hnil] at hp, hex⟩
      · next c type rest hq =>
          split
          · next hg =>
              have hb := s.fireContext_barrier (x := x) c type rest
              have hadd := hex.add hg
              have hlen : ((s.fireContext x c type rest).barriers x).pendingBarrierRequests.length
                  ≤ fuel := by
                rw [hb]
                rw [hq, List.length_cons] at hfuel
                exact Nat.le_of_succ_le_succ hfuel
              have hex' : ((s.fireContext x c type rest).barriers x).Exclusive := by
                rw [hb]
                exact ⟨hadd.reads, hadd.writes, hadd.one, hadd.alone⟩
              obtain ⟨fired, hfires, hblocked, hex'⟩ := ih hlen hex'
              exact ⟨_, hfires.fireContext hq, hblocked, hex'⟩
          · next hg =>
              refine ⟨[], Fires.refl s, fun p hp => ?_, hex⟩
              rw [hq, List.head?_cons, Option.mem_some_iff] at hp
              rw [← hp]
              simpa using hg

/-! ## §3. Every call keeps the books of the barrier. -/

section Requests

variable (l l' : List GrantRecord) (fired : List (ContextId × BarrierType)) (grant : Grant)
  (c : ContextId) (type : BarrierType)

theorem GrantRecord.requests_append :
    GrantRecord.requests grant (l ++ l')
      = GrantRecord.requests grant l ++ GrantRecord.requests grant l' := by
  simp [GrantRecord.requests]

theorem GrantRecord.requests_atOnce :
    GrantRecord.requests .atOnce [⟨c, type, .atOnce⟩] = [(c, type)]
      ∧ GrantRecord.requests .fired [⟨c, type, .atOnce⟩] = [] := ⟨rfl, rfl⟩

theorem GrantRecord.requests_fired :
    GrantRecord.requests .atOnce (fired.map (fun p => ⟨p.1, p.2, .fired⟩)) = []
      ∧ GrantRecord.requests .fired (fired.map (fun p => ⟨p.1, p.2, .fired⟩)) = fired := by
  simp [GrantRecord.requests, List.filter_map, Function.comp_def]

end Requests

namespace BarrierRun

variable {s₀ : State K V} {r : BarrierRun K V} {c : ContextId} {type : BarrierType}

structure Inv (s₀ : State K V) (x : BlkAddress) (r : BarrierRun K V) : Prop where
  count : ∀ t, (r.state.barriers x).count t = r.grantedOf t - r.removed.count t
  blocked : (r.state.barriers x).Blocked
  exclusive : (r.state.barriers x).Exclusive
  once : ∀ p, r.requested.count p = (r.grantedBy .atOnce).count p + r.queued.count p
  order : r.queued = r.grantedBy .fired ++ r.pending x
  contexts : ∀ c, r.state.contexts c
    = (r.granted.filter (fun g => decide (g.context = c))).foldl (CallBackContext.grant x)
        (s₀.contexts c)
  ready : r.state.barrierReadyContexts
    = s₀.barrierReadyContexts ++ (r.grantedBy .fired).map Prod.fst

theorem inv_start (h : s₀.barriers x = ContextBarrier.new) : Inv s₀ x (start s₀) := by
  refine ⟨fun t => ?_, ?_, ?_, fun _ => rfl, ?_, fun _ => rfl,
    by simp [start, grantedBy, GrantRecord.requests]⟩
  · cases t <;> simp [start, h, ContextBarrier.new, ContextBarrier.count, grantedOf]
  · intro p hp
    simp [start, h, ContextBarrier.new] at hp
  · simp only [start, h]
    exact ⟨le_rfl, le_rfl, by decide, fun h => absurd h (by decide)⟩
  · simp [start, h, ContextBarrier.new, pending, grantedBy, GrantRecord.requests]

/-- **A request is granted at once**, past whatever waits. -/
theorem Inv.grant (h : Inv s₀ x r) (hg : (r.state.barriers x).grants type = true) :
    Inv s₀ x (r.step x (.set c type)) := by
  have hstep : r.step x (.set c type) = { r with
      state := (r.state.setBarrier x ((r.state.barriers x).add type)).addToken c ⟨x, type⟩
      requested := r.requested ++ [(c, type)]
      granted := r.granted ++ [⟨c, type, .atOnce⟩] } := by
    simp only [step, State.requestBarrier, if_pos hg]
  have hb : ((r.state.setBarrier x ((r.state.barriers x).add type)).addToken c ⟨x, type⟩).barriers x
      = (r.state.barriers x).add type := by
    simp [State.addToken, State.setContext, State.setBarrier]
  rw [hstep]
  refine ⟨fun t => ?_, ?_, ?_, fun p => ?_, ?_, fun d => ?_, ?_⟩
  · have hcount := h.count t
    simp only [hb, ContextBarrier.count_add, grantedOf, List.countP_append] at hcount ⊢
    by_cases ht : t = type
    · simp [ht] at hcount ⊢; omega
    · simp [ht, Ne.symm ht, hcount]
  · simp only [hb]
    exact h.blocked.add h.exclusive.reads hg
  · simp only [hb]
    exact h.exclusive.add hg
  · have := h.once p
    simp only [grantedBy, GrantRecord.requests_append, GrantRecord.requests_atOnce,
      List.count_append] at this ⊢
    omega
  · have := h.order
    simp only [grantedBy, pending, hb, ContextBarrier.pending_add, GrantRecord.requests_append,
      GrantRecord.requests_atOnce, List.append_nil] at this ⊢
    exact this
  · have hd := h.contexts d
    simp only [List.filter_append, List.foldl_append]
    rw [← hd]
    by_cases hdc : d = c
    · subst hdc
      rw [List.filter_cons_of_pos (by simp)]
      simp [State.addToken, State.setContext, State.setBarrier, CallBackContext.grant]
    · rw [List.filter_cons_of_neg (by simpa using Ne.symm hdc)]
      simp [State.addToken, State.setContext, State.setBarrier, hdc]
  · have := h.ready
    simp only [grantedBy, GrantRecord.requests_append, GrantRecord.requests_atOnce,
      List.append_nil] at this ⊢
    exact this

/-- **A request that cannot be granted waits** at the end of the queue. -/
theorem Inv.enqueue (h : Inv s₀ x r) (hg : (r.state.barriers x).grants type = false) :
    Inv s₀ x (r.step x (.set c type)) := by
  have hstep : r.step x (.set c type) = { r with
      state := r.state.setBarrier x ((r.state.barriers x).push c type)
      requested := r.requested ++ [(c, type)]
      queued := r.queued ++ [(c, type)] } := by
    simp [step, State.requestBarrier, hg]
  have hb : (r.state.setBarrier x ((r.state.barriers x).push c type)).barriers x
      = (r.state.barriers x).push c type := by
    simp [State.setBarrier]
  rw [hstep]
  refine ⟨fun t => ?_, ?_, ?_, fun p => ?_, ?_, h.contexts, h.ready⟩
  · have hcount := h.count t
    rw [hb]
    cases t <;> exact hcount
  · rw [hb]
    exact h.blocked.push c hg
  · rw [hb]
    exact ⟨h.exclusive.reads, h.exclusive.writes, h.exclusive.one, h.exclusive.alone⟩
  · have := h.once p
    simp only [grantedBy, List.count_append] at this ⊢
    omega
  · have := h.order
    simp only [pending, hb, grantedBy] at this ⊢
    rw [this, List.append_assoc]
    rfl

/-- A barrier that is there can be taken away. -/
theorem sub_exclusive {b : ContextBarrier ContextId} (h : b.Exclusive) (hpos : 0 < b.count type) :
    (b.sub type).Exclusive ∧ ∀ t, (b.sub type).count t = b.count t - if t = type then 1 else 0 := by
  obtain ⟨h1, h2, h3, h4⟩ := h
  constructor
  · cases type <;> simp only [ContextBarrier.count, ContextBarrier.sub] at hpos ⊢ <;>
      constructor <;> simp only <;> omega
  · intro t
    cases type <;> cases t <;> simp [ContextBarrier.sub, ContextBarrier.count]

/-- **A barrier is removed**, and the queue is offered what that frees. -/
theorem Inv.remove (h : Inv s₀ x r) (hal : r.removed.count type < r.grantedOf type) :
    Inv s₀ x (r.step x (.remove type)) := by
  have hpos : 0 < (r.state.barriers x).count type := by
    rw [h.count type]
    omega
  obtain ⟨hex, hcount⟩ := sub_exclusive h.exclusive hpos
  have hb : (r.state.setBarrier x ((r.state.barriers x).sub type)).barriers x
      = (r.state.barriers x).sub type := by
    simp [State.setBarrier]
  have hfuel : ((r.state.setBarrier x
      ((r.state.barriers x).sub type)).barriers x).pendingBarrierRequests.length
        ≤ (r.pending x).length := by
    rw [hb, ContextBarrier.pending_sub]
    exact Nat.le_refl _
  obtain ⟨fired, hfires, hblocked, hex'⟩ := offerBarrier_fires hfuel (by rw [hb]; exact hex)
  have hqueue := hfires.queue
  rw [hb, ContextBarrier.pending_sub] at hqueue
  have htake : (r.pending x).take ((r.pending x).length
      - ((r.state.removeBarrier x type).barriers x).pendingBarrierRequests.length) = fired := by
    have hsplit : r.pending x = fired
        ++ ((r.state.removeBarrier x type).barriers x).pendingBarrierRequests := hqueue
    rw [hsplit, List.length_append, Nat.add_sub_cancel]
    exact List.take_left
  have hstep : r.step x (.remove type) = { r with
      state := r.state.removeBarrier x type
      granted := r.granted ++ fired.map (fun p => ⟨p.1, p.2, .fired⟩)
      removed := r.removed ++ [type] } := by
    simp only [step, htake]
  rw [hstep]
  refine ⟨fun t => ?_, hblocked, hex', fun p => ?_, ?_, fun d => ?_, ?_⟩
  · have hafter := hfires.count t
    rw [hb, hcount t, h.count t] at hafter
    refine hafter.trans ?_
    simp only [grantedOf, List.countP_append, List.countP_map, List.count_append, Function.comp_def]
    by_cases ht : t = type
    · simp [ht]; omega
    · simp [ht, Ne.symm ht]; omega
  · have := h.once p
    simp only [grantedBy, GrantRecord.requests_append, GrantRecord.requests_fired,
      List.append_nil] at this ⊢
    exact this
  · have := h.order
    simp only [grantedBy, GrantRecord.requests_append, GrantRecord.requests_fired,
      pending] at this ⊢
    rw [this, hqueue, List.append_assoc]
    rfl
  · refine (hfires.contexts d).trans ?_
    rw [List.filter_append, List.foldl_append, ← h.contexts d, List.filter_map, List.foldl_map]
    rfl
  · have hready := h.ready
    simp only [grantedBy, GrantRecord.requests_append, GrantRecord.requests_fired,
      List.map_append] at hready ⊢
    rw [← List.append_assoc, ← hready]
    exact hfires.ready

/-- **One call keeps the books.** -/
theorem Inv.step (h : Inv s₀ x r) (call : BarrierCall)
    (hal : ∀ type, call = .remove type → r.removed.count type < r.grantedOf type) :
    Inv s₀ x (r.step x call) := by
  cases call with
  | set c type =>
      cases hg : (r.state.barriers x).grants type with
      | true => exact h.grant hg
      | false => exact h.enqueue hg
  | remove type => exact h.remove (hal type rfl)

theorem run_inv (calls : List BarrierCall) :
    ∀ {r : BarrierRun K V}, Inv s₀ x r → Allowed x r calls → Inv s₀ x (r.run x calls) := by
  induction calls with
  | nil => intro r h _; exact h
  | cons call calls ih => intro r h hal; exact ih (h.step call hal.1) hal.2

theorem Inv.ok (h : Inv s₀ x r) : Ok s₀ x r := by
  refine ⟨h.count .read, h.count .write, fun c rest hq => ?_, fun c rest hq => ?_, h.once, h.order,
    h.contexts, h.ready⟩
  · have hg := h.blocked (c, .read) (by rw [pending] at hq; rw [hq]; rfl)
    have := h.exclusive.writes
    have := h.exclusive.one
    simp only [ContextBarrier.grants, decide_eq_false_iff_not] at hg
    omega
  · have hg := h.blocked (c, .write) (by rw [pending] at hq; rw [hq]; rfl)
    have := h.exclusive.writes
    have := h.exclusive.reads
    simp only [ContextBarrier.grants, Bool.and_eq_false_iff, decide_eq_false_iff_not] at hg
    omega

/-- **A barrier never leaves a grantable waiter**, after any calls that remove only
barriers that were granted. -/
theorem run_barrierOk (s₀ : State K V) (x : BlkAddress) (hnew : s₀.barriers x = ContextBarrier.new)
    (calls : List BarrierCall) (hal : Allowed x (start s₀) calls) :
    Ok s₀ x ((start s₀).run x calls) :=
  (run_inv calls (inv_start hnew) hal).ok

/-- A reader overtakes a waiting writer; when both readers have gone, the writer is
fired, and a third reader waits for it. -/
def overtaking : List BarrierCall :=
  [.set (.search 0) .read, .set (.insert 0) .write, .set (.search 1) .read, .remove .read,
    .remove .read, .set (.search 2) .read]

theorem run_barrierOk_overtaking :
    Ok (init 3 : State Nat Nat) 0 ((start (init 3)).run 0 overtaking)
      ∧ ((start (init 3 : State Nat Nat)).run 0 overtaking).grantedBy .fired
        = [(.insert 0, .write)] := by
  refine ⟨run_barrierOk (init 3) 0 rfl overtaking ⟨?_, ?_, ?_, ?_, ?_, ?_, trivial⟩, by decide⟩
  · exact fun _ h => nomatch h
  · exact fun _ h => nomatch h
  · exact fun _ h => nomatch h
  · intro type h
    cases h
    decide
  · intro type h
    cases h
    decide
  · exact fun _ h => nomatch h

end BarrierRun

end PullBasedBPlusTree

end NvmTree
